import OS161.SfsPieces

/-!
# Reading from a file on an SFS volume

A read returns the bytes of the file from its position on, as many as it asks
for or as there are. It changes nothing but the caller's memory.
-/

set_option autoImplicit false

namespace OS161.SfsRead

open Function OS161.Vfs OS161.CopyInOut OS161.CopyChecks OS161.Sfs OS161.SfsIo OS161.Pieces OS161.SfsPieces
open OS161.SharedDescriptor (Rw)

/-- Memory `m'` is `m` with `len` bytes put at `base`. -/
structure Put (m m' : UserMemory) (base len : ℕ) (data : ℕ → UInt8) : Prop where
  bytes : ∀ j < len, m' (base+j) = some (data j)
  others : ∀ a, ¬(base ≤ a ∧ a < base+len) → m' a = m a

/-- A boundary of a read: the pieces before `i` are in the caller's memory. -/
structure Received (w : World) (buf p n i : ℕ) (s : Uio × World) : Prop where
  uio : s.1 = ⟨buf + cut p n i, p + cut p n i, n - cut p n i, .read⟩
  world : s.2 = { w with user := s.2.user }
  user : Put w.user s.2.user buf (cut p n i) (fun j => byteAt w (p+j))

/-- No whole block is read from a disk block of 2^23 or above. -/
def LowBlocks (w : World) (p n : ℕ) : Prop :=
  ∀ i, cut p n (i+1) = cut p n i + SFS_BLOCKSIZE → mapped w (home p + i) < 2^23

variable {w w' : World} {buf p n i c d len base : ℕ} {u : Uio} {m m' : UserMemory} {ptr : Buffer} {data : ℕ → UInt8}

theorem put_nothing (m : UserMemory) (base : ℕ) (data : ℕ → UInt8) : Put m m base 0 data :=
  ⟨fun _ hj => absurd hj (Nat.not_lt_zero _), fun _ _ => rfl⟩

/-- What has not been written can still be. -/
theorem Put.readable {k l : ℕ} (h : Put m m' base k data) (hm : Readable m base (k+l)) : Readable m' (base+k) l := by
  intro j hj
  obtain ⟨hlow, hmapped⟩ := hm (k+j) (by omega)
  rw [← Nat.add_assoc] at hlow hmapped
  rw [h.others _ (by omega)]
  exact ⟨hlow, hmapped⟩

theorem Put.append {m'' : UserMemory} {k l : ℕ} (h : Put m m' base k data)
    (h' : Put m' m'' (base+k) l (fun j => data (k+j))) : Put m m'' base (k+l) data := by
  constructor
  · intro j hj
    by_cases hjk : j < k
    · rw [h'.others _ (by omega)]
      exact h.bytes j hjk
    · have hbyte := h'.bytes (j-k) (by omega)
      rwa [show base+k+(j-k) = base+j by omega, show k+(j-k) = j by omega] at hbyte
  · intro a ha
    rw [h'.others a (by omega), h.others a (by omega)]

theorem uiomove_puts (len : ℕ) (hrw : u.rw = .read) (hlen : len ≤ u.resid) (hm : Readable m u.base len) (ptr : Buffer) :
    ∃ m', uiomove ptr len u m = (none, ptr, u.advance len, m') ∧ Put m m' u.base len ptr := by
  by_cases hzero : len = 0 ∨ u.resid = 0
  · have hlen0 : len = 0 := by omega
    refine ⟨m, ?_, ?_⟩
    · rw [uiomove, if_pos hzero, hlen0]
      rfl
    · rw [hlen0]
      exact put_nothing m u.base ptr
  · have hlast := (hm (len-1) (by omega)).1
    have hlow : u.base < 2^32 ∧ len < 2^32 ∧ u.base+len ≤ USERSPACETOP := by
      unfold USERSPACETOP at hlast ⊢
      omega
    obtain ⟨m', hcopy, hbytes, hothers⟩ := memcpy_out (m := m) (d := m) (i := 0) (n := len) ptr u.base
      (fun j _ hj => (hm j (by omega)).2)
    have hchecked := (blocks_checked hlow.1 (by omega) hlow.2.1).copyout ptr m
    rw [if_pos hlow.2.2, hcopy] at hchecked
    have hout : copyout ptr u.base len m = (none, m') := hchecked
    refine ⟨m', ?_, ?_, hothers⟩
    · rw [uiomove, if_neg hzero, hrw]
      simp only [hout]
    · intro j hj
      exact hbytes j (Nat.zero_le j) (by omega)

/-- The zeros that stand for a block that is not there. -/
theorem uiomovezeros_puts (hrw : u.rw = .read) (hlen : len ≤ u.resid) (hm : Readable m u.base len) :
    ∃ m', uiomovezeros len u m = (none, u.advance len, m') ∧ Put m m' u.base len zeros := by
  induction len using Nat.strongRecOn generalizing u m with
  | _ len ih =>
    by_cases hzero : len = 0
    · subst hzero
      refine ⟨m, ?_, put_nothing m u.base zeros⟩
      rw [uiomovezeros, if_pos rfl]
      rfl
    · have hsplit : min 16 len + (len - min 16 len) = len := by omega
      obtain ⟨m₁, hmove, hput⟩ := uiomove_puts (min 16 len) hrw (by omega)
        (fun j hj => hm j (by omega)) zeros
      obtain ⟨m₂, hrest, hput'⟩ := @ih (len - min 16 len) (by omega) (u.advance (min 16 len)) m₁ hrw
        (Nat.sub_le_sub_right hlen _) (hput.readable (by rwa [hsplit]))
      refine ⟨m₂, ?_, ?_⟩
      · rw [uiomovezeros, if_neg hzero]
        simp only [hmove, hrest]
        simp only [Uio.advance, Prod.mk.injEq, Uio.mk.injEq, and_true, true_and]
        omega
      · have hall := hput.append hput'
        rwa [hsplit] at hall

/-- Pieces of a read, none of which fails. -/
abbrev ReadGoes (w : World) (buf p n i k : ℕ) (r : IoResult) : Prop :=
  Goes (fun _ => True) (Received w buf p n) (fun _ _ => False) i k r

/-- A piece that has been put in the caller's memory. -/
theorem Received.next (h : Received w buf p n i (u, w')) (hwithin : Within p n i)
    (hput : Put w'.user m' (buf + cut p n i) (cut p n (i+1) - cut p n i) (fun j => byteAt w (p + (cut p n i + j)))) :
    ReadGoes w buf p n i 1 (.ok (none, u.advance (cut p n (i+1) - cut p n i), { w' with user := m' })) := by
  have huio : u = ⟨buf + cut p n i, p + cut p n i, n - cut p n i, .read⟩ := h.uio
  have hworld : w' = { w with user := w'.user } := h.world
  have hle := hwithin.le
  have hall := hwithin.all
  refine ⟨none, _, _, rfl, .one trivial ⟨?_, ?_, ?_⟩⟩
  · rw [huio]
    simp only [Uio.advance, Uio.mk.injEq, and_true]
    omega
  · rw [hworld]
  · have happend := h.user.append hput
    rwa [Nat.add_sub_cancel' hle] at happend

/-- The bytes of a piece are those of its block. -/
theorem byteAt_piece (hwithin : Within p n i) (hp : p < 2^41) {j : ℕ} (hj : j < cut p n (i+1) - cut p n i) :
    byteAt w (p + (cut p n i + j)) = blockData w (home p + i) ((p + cut p n i) % SFS_BLOCKSIZE + j) := by
  have hblock := hwithin.at_block
  have hinside := hwithin.inside
  have hwrapped : wrapped p = p := Nat.mod_eq_of_lt hp
  rw [hwrapped] at hblock
  generalize (p + cut p n i) % SFS_BLOCKSIZE = skip at *
  have hplace : p + (cut p n i + j) = SFS_BLOCKSIZE*(home p + i) + (skip + j) := by omega
  have hlt : skip + j < SFS_BLOCKSIZE := by omega
  rw [byteAt, hplace, Nat.mul_add_div (by decide), Nat.div_eq_of_lt hlt, Nat.mul_add_mod, Nat.mod_eq_of_lt hlt,
    Nat.add_zero]

/-- The block that a piece is in. -/
theorem block_of (hend : p + n ≤ SFS_BLOCKSIZE * maxBlocks) (hi : i < pieces p n) : home p + i < maxBlocks ∧ p < 2^41 := by
  simp only [pieces, home, SFS_BLOCKSIZE, maxBlocks, SFS_NDIRECT, SFS_NINDIRECT, SFS_DBPERIDB] at *
  omega

theorem Received.bmap (hr : Received w buf p n i (u, w')) (h : WellFormed w)
    (hend : p + n ≤ SFS_BLOCKSIZE * maxBlocks) (hi : i < pieces p n) :
    sfsBmap (fileblock u) (u.rw = .write) w' = .ok (.ok (mapped w (home p + i)), w') := by
  have huio : u = ⟨buf + cut p n i, p + cut p n i, n - cut p n i, .read⟩ := hr.uio
  have hworld : w' = { w with user := w'.user } := hr.world
  obtain ⟨hblock, hp⟩ := block_of hend hi
  have hfile := (within_piece hi).file_block
  have hsmall : (home p + i) % 2^32 = home p + i := by
    apply Nat.mod_eq_of_lt
    simp only [maxBlocks, SFS_NDIRECT, SFS_NINDIRECT, SFS_DBPERIDB] at hblock
    omega
  have hsound : WellFormed w' := by
    rw [hworld]
    exact h.withUser _
  have hmapped : mapped w' (home p + i) = mapped w (home p + i) := by
    rw [hworld]
    rfl
  rw [huio, fileblock, hfile, hsmall]
  exact (sfsBmap_read hsound hblock).trans (by rw [hmapped])

/-- There is room for a piece in the caller's memory. -/
theorem Received.room (hr : Received w buf p n i (u, w')) (hm : Readable w.user buf n) (hi : i < pieces p n) :
    Readable w'.user (buf + cut p n i) (cut p n (i+1) - cut p n i) := by
  apply hr.user.readable
  intro j hj
  have hwithin := within_piece hi
  have hle := hwithin.le
  have hall := hwithin.all
  exact hm j (by omega)

theorem read_partial (hr : Received w buf p n i (u, w')) (h : WellFormed w) (hend : p + n ≤ SFS_BLOCKSIZE * maxBlocks)
    (hm : Readable w.user buf n) (hi : i < pieces p n) :
    ReadGoes w buf p n i 1 (sfsPartialio ((p + cut p n i) % SFS_BLOCKSIZE) (cut p n (i+1) - cut p n i) u w') := by
  have hwithin := within_piece hi
  have huio : u = ⟨buf + cut p n i, p + cut p n i, n - cut p n i, .read⟩ := hr.uio
  have hworld : w' = { w with user := w'.user } := hr.world
  have hrw : u.rw = .read := by rw [huio]
  have hbase : u.base = buf + cut p n i := by rw [huio]
  have hresid : cut p n (i+1) - cut p n i ≤ u.resid := by
    rw [huio]
    exact Nat.sub_le_sub_right hwithin.all _
  have hload : loadBlock u.rw (mapped w (home p + i)) w' = .ok (blockData w (home p + i)) := by
    rw [hrw, loadBlock, blockData]
    by_cases hzero : mapped w (home p + i) = 0
    · rw [if_pos hzero, if_pos hzero]
      rfl
    · have hheld := h.held _ hzero
      rw [if_neg hzero, if_neg hzero, hworld]
      exact if_neg (by have hdevice := h.device; have hwords := h.words; have hlt := hheld.1; simp only; omega)
  have hroom := hr.room hm hi
  rw [← hbase] at hroom
  obtain ⟨m', hmove, hput⟩ := uiomove_puts _ hrw hresid hroom
    (fun j => blockData w (home p + i) ((p + cut p n i) % SFS_BLOCKSIZE + j))
  have hnot : ¬u.rw = .write := by
    rw [hrw]
    decide
  have hbmap := hr.bmap h hend hi
  rw [sfsPartialio, if_neg (Nat.not_lt.mpr hwithin.inside), hbmap]
  simp only [hload, hmove, if_neg hnot]
  apply hr.next hwithin
  rw [← hbase]
  refine ⟨?_, hput.others⟩
  intro j hj
  rw [hput.bytes j hj, byteAt_piece hwithin (block_of hend hi).2 hj]

/-- The device puts one sector in the caller's memory. -/
theorem lhdIo_reads (h : WellFormed w) (hd : d < w.nblocks) (hm : Readable w.user base SFS_BLOCKSIZE) :
    ∃ m', lhdIo ⟨base, d * SFS_BLOCKSIZE % 2^32, SFS_BLOCKSIZE, .read⟩ w =
        .ok (none, Uio.advance SFS_BLOCKSIZE ⟨base, d * SFS_BLOCKSIZE % 2^32, SFS_BLOCKSIZE, .read⟩,
          { w with user := m' }) ∧ Put w.user m' base SFS_BLOCKSIZE (w.disk (d % 2^23)) := by
  have hdevice := h.device
  have hwords := h.words
  have hsector : d * SFS_BLOCKSIZE % 2^32 / LHD_SECTSIZE % 2^32 = d % 2^23 := by
    unfold SFS_BLOCKSIZE LHD_SECTSIZE
    omega
  have haligned : d * SFS_BLOCKSIZE % 2^32 % LHD_SECTSIZE = 0 := by
    unfold SFS_BLOCKSIZE LHD_SECTSIZE
    omega
  have hlen : SFS_BLOCKSIZE / LHD_SECTSIZE = 1 := rfl
  have hrem : SFS_BLOCKSIZE % LHD_SECTSIZE = 0 := rfl
  let v : Uio := ⟨base, d * SFS_BLOCKSIZE % 2^32, SFS_BLOCKSIZE, .read⟩
  obtain ⟨m', hmove, hput⟩ := uiomove_puts (u := v) LHD_SECTSIZE rfl (Nat.le_refl _) hm (w.disk (d % 2^23))
  refine ⟨m', ?_, hput⟩
  simp only [lhdIo, haligned, hrem, ne_eq, not_true_eq_false, or_self, if_false, hsector, hlen]
  rw [if_neg (by omega)]
  simp only [lhdSectors]
  rw [show uiomove (w.disk (d % 2^23)) LHD_SECTSIZE ⟨base, d * SFS_BLOCKSIZE % 2^32, SFS_BLOCKSIZE, .read⟩ w.user =
    (none, w.disk (d % 2^23), v.advance LHD_SECTSIZE, m') from hmove]
  rfl

theorem read_block (hr : Received w buf p n i (u, w')) (h : WellFormed w) (hend : p + n ≤ SFS_BLOCKSIZE * maxBlocks)
    (hm : Readable w.user buf n) (hlow : LowBlocks w p n) (hi : i < pieces p n)
    (hwhole : cut p n (i+1) = cut p n i + SFS_BLOCKSIZE) : ReadGoes w buf p n i 1 (sfsBlockio u w') := by
  have hwithin := within_piece hi
  have huio : u = ⟨buf + cut p n i, p + cut p n i, n - cut p n i, .read⟩ := hr.uio
  have hworld : w' = { w with user := w'.user } := hr.world
  have hlen : cut p n (i+1) - cut p n i = SFS_BLOCKSIZE := by omega
  have hskip : (p + cut p n i) % SFS_BLOCKSIZE = 0 := by
    have hinside := hwithin.inside
    omega
  have hall := hwithin.all
  have hroom := hr.room hm hi
  have hnext : ∀ m', Put w'.user m' (buf + cut p n i) SFS_BLOCKSIZE (blockData w (home p + i)) →
      ReadGoes w buf p n i 1 (.ok (none, u.advance SFS_BLOCKSIZE, { w' with user := m' })) := by
    intro m' hput
    rw [← hlen] at hput ⊢
    apply hr.next hwithin
    refine ⟨?_, hput.others⟩
    intro j hj
    rw [hput.bytes j hj, byteAt_piece hwithin (block_of hend hi).2 hj, hskip, Nat.zero_add]
  rw [hlen] at hroom
  have hbmap := hr.bmap h hend hi
  rw [sfsBlockio, hbmap]
  by_cases hzero : mapped w (home p + i) = 0
  · have hbase : u.base = buf + cut p n i := by rw [huio]
    have hrw : u.rw = .read := by rw [huio]
    have hresid : SFS_BLOCKSIZE ≤ u.resid := by
      rw [huio]
      simp only
      omega
    rw [← hbase] at hroom
    obtain ⟨m', hmove, hput⟩ := uiomovezeros_puts hrw hresid hroom
    simp only [hzero, if_true, hrw, hmove]
    apply hnext
    rw [blockData, if_pos hzero, ← hbase]
    exact hput
  · have hheld := h.held _ hzero
    have hsound : WellFormed w' := by
      rw [hworld]
      exact h.withUser _
    have hd : mapped w (home p + i) < w'.nblocks := by
      rw [hworld]
      exact hheld.1
    obtain ⟨m', hio, hput⟩ := lhdIo_reads hsound hd hroom
    rw [Nat.mod_eq_of_lt (hlow i hwhole)] at hput
    have hdata : Put w'.user m' (buf + cut p n i) SFS_BLOCKSIZE (blockData w (home p + i)) := by
      rw [blockData, if_neg hzero]
      rwa [show w'.disk (mapped w (home p + i)) = w.disk (mapped w (home p + i)) by rw [hworld]] at hput
    have hgoal := hnext m' hdata
    subst huio
    have hresid : ¬n - cut p n i < SFS_BLOCKSIZE := by omega
    simp only [if_neg hzero, if_neg hresid, hio]
    simp only [Uio.advance] at hgoal ⊢
    rw [show mapped w (home p + i) * SFS_BLOCKSIZE % 2^32 + SFS_BLOCKSIZE - mapped w (home p + i) * SFS_BLOCKSIZE % 2^32
      + (p + cut p n i) = p + cut p n i + SFS_BLOCKSIZE by omega,
      show SFS_BLOCKSIZE - SFS_BLOCKSIZE + (n - cut p n i) - SFS_BLOCKSIZE = n - cut p n i - SFS_BLOCKSIZE by omega]
    exact hgoal

theorem read_carries (h : WellFormed w) (hend : p + n ≤ SFS_BLOCKSIZE * maxBlocks) (hm : Readable w.user buf n)
    (hlow : LowBlocks w p n) : Carries (fun _ => True) (Received w buf p n) (fun _ _ => False) p n := by
  have huio : ∀ i u w', Received w buf p n i (u, w') →
      u = ⟨buf + cut p n i, p + cut p n i, n - cut p n i, .read⟩ := fun _ _ _ hr => hr.uio
  refine ⟨?_, ?_, fun i u w' hi hr => read_partial hr h hend hm hi,
    fun i u w' hi hr hwhole => read_block hr h hend hm hlow hi hwhole⟩
  · intro i u w' hr
    rw [huio i u w' hr]
  · intro i u w' hr
    rw [huio i u w' hr]

/-- A read returns as many bytes as there are, and they are those of the file. -/
theorem sfsIo_read (h : WellFormed w) (hsize : w.size ≤ SFS_BLOCKSIZE * maxBlocks)
    (hm : Readable w.user buf (min n (w.size - p))) (hlow : LowBlocks w p (min n (w.size - p))) :
    ∃ u w', sfsIo ⟨buf, p, n, .read⟩ w = .ok (none, u, w') ∧ n - u.resid = min n (w.size - p) ∧
      w' = { w with user := w'.user } ∧ Put w.user w'.user buf (min n (w.size - p)) (fun j => byteAt w (p+j)) := by
  by_cases hpast : w.size ≤ p
  · have hnone : min n (w.size - p) = 0 := by omega
    refine ⟨⟨buf, p, n, .read⟩, w, ?_, ?_, rfl, ?_⟩
    · rw [sfsIo]
      exact if_pos ⟨rfl, hpast⟩
    · simp only
      omega
    · rw [hnone]
      exact put_nothing _ _ _
  · have hextra : n - (p + n - w.size) = min n (w.size - p) := by omega
    have hstart : Received w buf p (min n (w.size - p)) 0 (⟨buf, p, min n (w.size - p), .read⟩, w) := by
      refine ⟨?_, rfl, ?_⟩
      · simp only [cut_zero, Nat.add_zero, Nat.sub_zero]
      · rw [cut_zero]
        exact put_nothing _ _ _
    obtain ⟨e, u, w', hrun, hprogress⟩ := (read_carries h (by omega) hm hlow).transfer hstart
    cases hprogress with
    | failed e _ m hmk hok hbad hnear => exact hnear.elim
    | done _ hok hat =>
      rw [Nat.zero_add] at hat
      have huio : u = ⟨buf + cut p (min n (w.size - p)) (pieces p (min n (w.size - p))), p + _, _ - _, .read⟩ := hat.uio
      have hput := hat.user
      rw [cut_all] at huio hput
      have hnot : ¬Rw.read = Rw.write := by decide
      refine ⟨{ u with resid := u.resid + (p + n - w.size) }, w', ?_, ?_, hat.world, hput⟩
      · simp only [sfsIo, true_and, if_neg hpast, if_true, hextra, hrun, hnot, false_and, and_false, if_false]
      · rw [huio]
        simp only
        omega

end OS161.SfsRead
