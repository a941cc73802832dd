import OS161.SfsPieces

/-!
# Writing to a file on an SFS volume

A write that fails at one of its blocks returns an error, but the blocks before
that one have been written and the file has grown by them. So it does what it
says only if it fails at the first block or not at all, or if what it has
written by then was there already.
-/

set_option autoImplicit false

namespace OS161.SfsWrite

open Function OS161.Vfs OS161.CopyInOut OS161.CopyChecks OS161.FirstFit OS161.Sfs OS161.SfsIo OS161.Pieces OS161.SfsPieces
open OS161.ArgumentScan (memcpy_bytes)
open OS161.SharedDescriptor (Rw Desc sysCall)

/-- How many blocks have to be allocated for the first `i`. -/
def need (w : World) (p i : ℕ) : ℕ :=
  Nat.count (fun c => mapped w (home p + c) = 0) i +
    if w.indirect = 0 ∧ 0 < i ∧ SFS_NDIRECT < home p + i then 1 else 0

/-- Piece `i` can be written once those before it are: the file can have that block,
the caller's bytes can be read, and there is room on the volume. -/
structure Fits (w : World) (buf p n i : ℕ) : Prop where
  block : home p + i < maxBlocks
  memory : ∀ j, cut p n i ≤ j → j < cut p n (i+1) → buf+j < USERSPACETOP ∧ w.user (buf+j) ≠ none
  space : need w p (i+1) ≤ room w

/-- The caller's byte `j`. -/
def given (w : World) (buf j : ℕ) : UInt8 := (w.user (buf+j)).getD 0

/-- The file with the first `k` bytes written. -/
def pasted (w : World) (buf p k x : ℕ) : UInt8 :=
  if wrapped p ≤ x ∧ x < wrapped p + k then given w buf (x - wrapped p) else byteAt w x

/-- The disk block that piece `i` is written to. -/
def Target (w : World) (p i d : ℕ) : Prop :=
  (mapped w (home p + i) ≠ 0 ∧ d = mapped w (home p + i)) ∨
    (mapped w (home p + i) = 0 ∧ Free w d ∧ Nat.count (Free w) d + 1 = need w p (i+1))

/-- No whole block is written to a disk block of 2^23 or above. -/
def LowTargets (w : World) (buf p n : ℕ) : Prop :=
  ∀ i d, (∀ c ≤ i, Fits w buf p n c) → cut p n (i+1) = cut p n i + SFS_BLOCKSIZE → Target w p i d → d < 2^23

/-- What the first `m` pieces would write is there already, and ends where the file does or before. -/
def Already (w : World) (buf p n m : ℕ) : Prop :=
  (∀ j < cut p n m, w.user (buf+j) = some (byteAt w (wrapped p + j))) ∧
    (p + cut p n m ≤ w.size ∨ (p + cut p n m) % 2^32 = w.size)

/-- The write can be carried out where it is meant to go, or fails before it has changed anything. -/
def WritesCleanly (w : World) (buf p n : ℕ) : Prop :=
  buf = 0 ∨ ((∀ i < pieces p n, Fits w buf p n i) ∧ (n = 0 ∨ p < 2^41)) ∨
    ∃ m < pieces p n, (∀ i < m, Fits w buf p n i) ∧ ¬Fits w buf p n m ∧ (m = 0 ∨ Already w buf p n m)

/-- Exactly the `k` bytes at `p` are replaced, by the first `k` of the buffer. -/
structure Replaced (w w' : World) (buf p k : ℕ) : Prop where
  bytes : ∀ j < k, w.user (buf+j) = some (byteAt w' (p+j))
  others : ∀ x, ¬(p ≤ x ∧ x < p+k) → byteAt w' x = byteAt w x
  size : w'.size = if k = 0 then w.size else max w.size (p+k)

structure Unchanged (w w' : World) : Prop where
  bytes : ∀ x, byteAt w' x = byteAt w x
  size : w'.size = w.size

/-- `sys_write` replaces what it reports and moves the position by as much, or
returns an error and leaves the file as it was. -/
def WriteRight (space : ℕ → ℕ) (t buf : ℕ) (size : UInt32) (d : Desc (Except Stop World)) (w : World) : Prop :=
  ∃ w', (sysCall sfsVnode space t (.write buf size) d).2.world = .ok w' ∧
    match (sysCall sfsVnode space t (.write buf size) d).1.result with
    | .ok (.count k) => k ≤ size ∧ Replaced w w' buf d.seekLocation.toInt.toNat k.toNat ∧
        (sysCall sfsVnode space t (.write buf size) d).2.seekLocation.toInt = d.seekLocation.toInt + k.toNat
    | .ok (.position _) => False
    | .error _ => Unchanged w w'

section Run

variable (w₀ : World) (buf p n : ℕ)

/-- A boundary: the pieces before `i` have been written, and nothing else. -/
structure Reached (i : ℕ) (s : Uio × World) : Prop where
  sound : WellFormed s.2
  uio : s.1 = ⟨buf + cut p n i, p + cut p n i, n - cut p n i, .write⟩
  kept : Kept w₀ s.2
  data : ∀ x, byteAt s.2 x = pasted w₀ buf p (cut p n i) x
  ahead : ∀ c, home p + i ≤ c → mapped s.2 c = mapped w₀ c
  indirect : s.2.indirect = 0 ↔ w₀.indirect = 0 ∧ (i = 0 ∨ home p + i ≤ SFS_NDIRECT)
  free : ∀ d, Free s.2 d ↔ Left (Free w₀) (need w₀ p i) d
  fits : ∀ c < i, Fits w₀ buf p n c
  foreign : ∀ e, Foreign w₀ e → Foreign s.2 e ∧ s.2.disk e = w₀.disk e
  memory : buf + cut p n i < 2^32

/-- Piece `i` has failed. -/
structure Stopped (i : ℕ) (s : Uio × World) : Prop where
  sound : WellFormed s.2
  uio : s.1 = ⟨buf + cut p n i, p + cut p n i, n - cut p n i, .write⟩
  kept : Kept w₀ s.2
  data : ∀ x, byteAt s.2 x = pasted w₀ buf p (cut p n i) x
  foreign : ∀ e, Foreign w₀ e → Foreign s.2 e ∧ s.2.disk e = w₀.disk e

/-- What `sfs_io` leaves when it has written `m` pieces. -/
structure Outcome (m : ℕ) (e : Option Errno) (u : Uio) (w : World) : Prop where
  fits : ∀ i < m, Fits w₀ buf p n i
  ends : (e = none ∧ m = pieces p n) ∨ (e ≠ none ∧ m < pieces p n ∧ ¬Fits w₀ buf p n m)
  resid : u.resid = n - cut p n m
  sound : WellFormed w
  data : ∀ x, byteAt w x = pasted w₀ buf p (cut p n m) x
  size : w.size = if 0 < cut p n m ∧ w₀.size < p + cut p n m then (p + cut p n m) % 2^32 else w₀.size
  foreign : ∀ e, Foreign w₀ e → Foreign w e ∧ w.disk e = w₀.disk e

/-- Pieces `i` to `i+k` of the write. -/
abbrev WriteGoes (i k : ℕ) (r : IoResult) : Prop :=
  Goes (Fits w₀ buf p n) (Reached w₀ buf p n) (Stopped w₀ buf p n) i k r

end Run

variable {w₀ w w' : World} {buf p n i k l c d len : ℕ} {u u' : Uio} {r : IoResult} {next : Uio → World → IoResult}
  {m : UserMemory} {ptr : Buffer}

theorem memcpy_above {src : ℕ → Option UInt8} {j : ℕ} (hj : i+n ≤ j) :
    (memcpy src (fun _ => true) putIn i n ptr).2 j = ptr j := by
  induction n generalizing i ptr with
  | zero => rfl
  | succ n ih =>
    cases hs : src i with
    | none => simp [memcpy, hs]
    | some b =>
      rw [memcpy_succ hs rfl, ih (by omega)]
      exact update_of_ne (by omega) _ _

theorem uiomove_moves (len : ℕ) (hbase : u.base < 2^32) (hrw : u.rw = .write) (hlen : len ≤ u.resid)
    (hm : Readable m u.base len) (ptr : Buffer) :
    ∃ ptr', uiomove ptr len u m = (none, ptr', u.advance len, m) ∧
      ∀ j, ptr' j = if j < len then (m (u.base+j)).getD 0 else ptr j := by
  by_cases hzero : len = 0 ∨ u.resid = 0
  · have hlen0 : len = 0 := by omega
    refine ⟨ptr, ?_, fun j => by simp [hlen0]⟩
    rw [uiomove, if_pos hzero, hlen0]
    rfl
  · have hlast := (hm (len-1) (by omega)).1
    have htop : u.base+len ≤ USERSPACETOP := by omega
    have hlen' : len < 2^32 := by
      unfold USERSPACETOP at htop
      omega
    have hnone := ((blocks_checked hbase (by omega) hlen').copyinFault htop m ptr).mpr (fun j hj => (hm j hj).2)
    have hcopy : copyin m u.base len ptr = (none, (copyin m u.base len ptr).2) := Prod.ext hnone rfl
    refine ⟨(copyin m u.base len ptr).2, ?_, ?_⟩
    · rw [uiomove, if_neg hzero, hrw]
      simp only
      rw [hcopy]
    · intro j
      unfold copyin at hnone ⊢
      have hcopied := (copyBlock_none.mp hnone).2
      rw [copyBlock_dest hnone]
      by_cases hj : j < len
      · have hbyte := (memcpy_bytes hcopied).1 j (Nat.zero_le j) (by omega)
        rw [if_pos hj, hbyte]
        rfl
      · rw [if_neg hj]
        exact memcpy_above (by omega)

theorem uiomove_fails (hbase : u.base < 2^32) (hrw : u.rw = .write) (hlen : len ≤ u.resid) (hlen' : len < 2^32)
    (hm : ¬Readable m u.base len) (ptr : Buffer) : ∃ e ptr', uiomove ptr len u m = (some e, ptr', u, m) := by
  have hpos : 1 ≤ len := by
    by_contra hzero
    exact hm (fun j hj => by omega)
  have hsome : ∃ e, (copyin m u.base len ptr).1 = some e := by
    cases hcopy : (copyin m u.base len ptr).1 with
    | some e => exact ⟨e, rfl⟩
    | none =>
      exfalso
      have hchecked := blocks_checked hbase hpos hlen'
      by_cases htop : u.base+len ≤ USERSPACETOP
      · have hall := (hchecked.copyinFault htop m ptr).mp hcopy
        exact hm (fun j hj => ⟨by omega, hall j hj⟩)
      · rw [hchecked.copyin, if_neg htop] at hcopy
        cases hcopy
  obtain ⟨e, he⟩ := hsome
  refine ⟨e, (copyin m u.base len ptr).2, ?_⟩
  have hcopy : copyin m u.base len ptr = (some e, (copyin m u.base len ptr).2) := Prod.ext he rfl
  rw [uiomove, if_neg (by omega), hrw]
  simp only
  rw [hcopy]

theorem need_zero : need w₀ p 0 = 0 := by simp [need]

theorem need_space (h : ∀ c < i, Fits w₀ buf p n c) : need w₀ p i ≤ room w₀ := by
  cases i with
  | zero =>
    rw [need_zero]
    exact Nat.zero_le _
  | succ i => exact (h i (Nat.lt_succ_self i)).space

theorem Reached.room_eq {s : Uio × World} (h : Reached w₀ buf p n i s) : room s.2 = room w₀ - need w₀ p i := by
  unfold room
  rw [h.kept.nbits, count_congr h.free, count_left]

/-- What the next piece needs is what its block wants. -/
theorem Reached.need_succ {s : Uio × World} (h : Reached w₀ buf p n i s) :
    need w₀ p (i+1) = need w₀ p i + wants s.2 (home p + i) := by
  have hindicator : (if w₀.indirect = 0 ∧ 0 < i+1 ∧ SFS_NDIRECT < home p + (i+1) then 1 else 0) =
      (if w₀.indirect = 0 ∧ 0 < i ∧ SFS_NDIRECT < home p + i then 1 else 0) +
        if SFS_NDIRECT ≤ home p + i ∧ s.2.indirect = 0 then 1 else 0 := by
    have hind := h.indirect
    split_ifs <;> omega
  unfold need wants
  rw [Nat.count_succ, h.ahead (home p + i) (Nat.le_refl _), hindicator]
  omega

theorem Reached.stopped {s : Uio × World} (h : Reached w₀ buf p n i s) : Stopped w₀ buf p n i s :=
  ⟨h.sound, h.uio, h.kept, h.data, h.foreign⟩

theorem Reached.fileblock {s : Uio × World} (h : Reached w₀ buf p n i s) (hi : i < pieces p n) :
    fileblock s.1 = (home p + i) % 2^32 := by
  rw [h.uio]
  exact (within_piece hi).file_block

/-- The block number does not wrap around on the way. -/
theorem Reached.block_small {s : Uio × World} (h : Reached w₀ buf p n i s) : home p + i < 2^32 := by
  have hhome : home p < 2^32 := Nat.mod_lt _ (by decide)
  cases i with
  | zero => exact hhome
  | succ i =>
    have hblock := (h.fits i (Nat.lt_succ_self i)).block
    unfold maxBlocks SFS_NDIRECT SFS_NINDIRECT SFS_DBPERIDB at hblock
    omega

/-- The disk block that has been found for a piece. -/
theorem Reached.target {s : Uio × World} (h : Reached w₀ buf p n i s) (hm : Maps (home p + i) d s.2 w') :
    Target w₀ p i d := by
  have hmapped := h.ahead (home p + i) (Nat.le_refl _)
  by_cases hzero : mapped s.2 (home p + i) = 0
  · right
    obtain ⟨hfree, hcount⟩ := hm.new hzero
    obtain ⟨hfree', hle⟩ := (h.free d).mp hfree
    rw [count_congr h.free, count_left] at hcount
    rw [h.need_succ]
    exact ⟨hmapped.symm.trans hzero, hfree', by omega⟩
  · left
    rw [← hmapped]
    exact ⟨hzero, hm.old hzero⟩

/-- The new contents of the block that piece `i` is in. -/
def Fills (w₀ : World) (buf p n i : ℕ) (old data : Block) : Prop :=
  ∀ y < SFS_BLOCKSIZE, data y =
    if (p + cut p n i) % SFS_BLOCKSIZE ≤ y ∧ y < (p + cut p n i) % SFS_BLOCKSIZE + (cut p n (i+1) - cut p n i)
    then given w₀ buf (cut p n i + (y - (p + cut p n i) % SFS_BLOCKSIZE)) else old y

/-- Outside piece `i` it makes no difference. -/
theorem pasted_outside (h : Within p n i) {x : ℕ}
    (hx : ¬(wrapped p + cut p n i ≤ x ∧ x < wrapped p + cut p n (i+1))) :
    pasted w₀ buf p (cut p n (i+1)) x = pasted w₀ buf p (cut p n i) x := by
  have hle := h.le
  have hiff : (wrapped p ≤ x ∧ x < wrapped p + cut p n (i+1)) ↔ (wrapped p ≤ x ∧ x < wrapped p + cut p n i) := by
    omega
  unfold pasted
  simp only [hiff]

/-- The file after a piece has been written to its block. -/
theorem Fills.pasted {old data : Block} (hf : Fills w₀ buf p n i old data) (h : Within p n i) {x : ℕ}
    (hx : x / SFS_BLOCKSIZE = home p + i)
    (hold : old (x % SFS_BLOCKSIZE) = SfsWrite.pasted w₀ buf p (cut p n i) x) :
    data (x % SFS_BLOCKSIZE) = SfsWrite.pasted w₀ buf p (cut p n (i+1)) x := by
  rw [hf _ (Nat.mod_lt x (by decide))]
  by_cases hin : wrapped p + cut p n i ≤ x ∧ x < wrapped p + cut p n (i+1)
  · have hplace := ((h.bytes_iff x).mp hin).2
    have hblock := h.at_block
    have hindex : cut p n i + (x % SFS_BLOCKSIZE - (p + cut p n i) % SFS_BLOCKSIZE) = x - wrapped p := by
      have hmod := Nat.div_add_mod x SFS_BLOCKSIZE
      rw [hx] at hmod
      omega
    rw [if_pos hplace, hindex, SfsWrite.pasted, if_pos (by omega)]
  · rw [if_neg (fun hplace => hin ((h.bytes_iff x).mpr ⟨hx, hplace⟩)), hold, pasted_outside h hin]

/-- A piece that has been written. -/
theorem Reached.write (h : Reached w₀ buf p n i (u, w)) (hi : i < pieces p n) (hm : Maps (home p + i) d w w')
    (hfits : Fits w₀ buf p n i) {data : Block} (hdata : Fills w₀ buf p n i (w'.disk d) data) :
    ∃ w'', sfsWriteblock d data w' = .ok w'' ∧ w'' = { w' with disk := update w'.disk d data } ∧
      Reached w₀ buf p n (i+1) (u.advance (cut p n (i+1) - cut p n i), w'') := by
  have hself : mapped w' (home p + i) = d := by rw [hm.mapped, update_self]
  obtain ⟨w'', hwrite, heq, hsound, hmapped, hbytes⟩ := writeblock_data hm.grown.sound hself hm.nonzero data
  refine ⟨w'', hwrite, heq, ?_⟩
  have hwithin := within_piece hi
  have hle := hwithin.le
  have hfree : ∀ e, Free w'' e ↔ Free w' e := by
    subst heq
    exact fun e => Iff.rfl
  have hindirect : w''.indirect = w'.indirect := by rw [heq]
  have hkept : Kept w' w'' := by
    subst heq
    exact ⟨rfl, rfl, rfl, rfl, rfl⟩
  have huio : u = ⟨buf + cut p n i, p + cut p n i, n - cut p n i, .write⟩ := h.uio
  refine ⟨hsound, ?_, (h.kept.trans hm.grown.kept).trans hkept, ?_, ?_, ?_, ?_, ?_, ?_, ?_⟩
  · rw [huio]
    have hall := hwithin.all
    simp only [Uio.advance, Uio.mk.injEq, and_true]
    omega
  · intro x
    show byteAt w'' x = _
    have hbefore : byteAt w' x = pasted w₀ buf p (cut p n i) x := (hm.grown.data x).trans (h.data x)
    rw [hbytes x]
    by_cases hx : x / SFS_BLOCKSIZE = home p + i
    · rw [if_pos hx]
      apply hdata.pasted hwithin hx
      rw [← hbefore, byteAt, blockData, hx, hself, if_neg hm.nonzero]
    · rw [if_neg hx, hbefore]
      exact (pasted_outside hwithin (fun hin => hx ((hwithin.bytes_iff x).mp hin).1)).symm
  · intro e he
    show mapped w'' e = mapped w₀ e
    rw [hmapped, hm.mapped, update_of_ne (by omega), h.ahead e (by omega)]
  · show w''.indirect = 0 ↔ _
    rw [hindirect, hm.indirect, h.indirect]
    constructor
    · rintro ⟨⟨hnone, -⟩, hlt⟩
      exact ⟨hnone, .inr hlt⟩
    · rintro ⟨hnone, hlt⟩
      exact ⟨⟨hnone, .inr (by omega)⟩, by omega⟩
  · intro e
    show Free w'' e ↔ _
    rw [hfree, hm.grown.free, left_add h.free, h.need_succ]
  · intro e he
    by_cases hei : e = i
    · rwa [hei]
    · exact h.fits e (by omega)
  · intro e he
    show Foreign w'' e ∧ w''.disk e = w₀.disk e
    obtain ⟨hforeign, hdisk⟩ := h.foreign e he
    obtain ⟨⟨hused, hblocks, hind⟩, hdisk'⟩ := hm.grown.foreign e hforeign
    have hne : e ≠ d := by
      rintro rfl
      exact hblocks _ hself
    refine ⟨⟨?_, ?_, by rwa [hindirect]⟩, ?_⟩
    · rw [heq]
      exact hused
    · rwa [hmapped]
    · rw [heq]
      exact (update_of_ne hne data w'.disk).trans (hdisk'.trans hdisk)
  · by_cases hlen : cut p n i = cut p n (i+1)
    · rw [← hlen]
      exact h.memory
    · have hlast := (hfits.memory (cut p n (i+1) - 1) (by omega) (by omega)).1
      unfold USERSPACETOP at hlast
      omega

/-- The piece cannot be done, and nothing has been written. -/
theorem Reached.fail (h : Reached w₀ buf p n i (u, w)) (e : Errno) (hg : Grown k w w') (hbad : ¬Fits w₀ buf p n i) :
    WriteGoes w₀ buf p n i 1 (.ok (some e, u, w')) := by
  refine ⟨some e, u, w', rfl, .fail e hbad ⟨hg.sound, h.uio, h.kept.trans hg.kept, ?_, ?_⟩⟩
  · intro x
    exact (hg.data x).trans (h.data x)
  · intro x hx
    obtain ⟨hx', hdisk⟩ := h.foreign x hx
    obtain ⟨hx'', hdisk'⟩ := hg.foreign x hx'
    exact ⟨hx'', hdisk'.trans hdisk⟩

/-- The block that the piece is in: it cannot be had, or it is there now. -/
theorem Reached.bmap (h : Reached w₀ buf p n i (u, w)) (hi : i < pieces p n) :
    (∃ e w', sfsBmap (SfsIo.fileblock u) (u.rw = .write) w = .ok (.error e, w') ∧
      WriteGoes w₀ buf p n i 1 (.ok (some e, u, w'))) ∨
    ∃ d w', sfsBmap (SfsIo.fileblock u) (u.rw = .write) w = .ok (.ok d, w') ∧ home p + i < maxBlocks ∧
      need w₀ p (i+1) ≤ room w₀ ∧ Maps (home p + i) d w w' := by
  have huio : u = ⟨buf + cut p n i, p + cut p n i, n - cut p n i, .write⟩ := h.uio
  have hrw : u.rw = .write := by rw [huio]
  have hblock : SfsIo.fileblock u = home p + i := (h.fileblock hi).trans (Nat.mod_eq_of_lt h.block_small)
  have hneed : need w₀ p (i+1) = need w₀ p i + wants w (home p + i) := h.need_succ
  have hroom' : room w = room w₀ - need w₀ p i := h.room_eq
  have hspace := need_space h.fits
  rw [hblock, decide_eq_true hrw]
  have hspec : BmapSpec (home p + i) w _ := sfsBmap_spec h.sound (home p + i)
  generalize sfsBmap (home p + i) true w = res at hspec ⊢
  cases hspec with
  | beyond hc =>
    refine .inl ⟨_, w, rfl, h.fail _ (Grown.refl h.sound) ?_⟩
    intro hfits
    have hlt := hfits.block
    omega
  | full r w' hc hroom hg =>
    refine .inl ⟨_, w', rfl, h.fail _ hg ?_⟩
    intro hfits
    have hle := hfits.space
    omega
  | maps d w' hc hroom hm => exact .inr ⟨d, w', rfl, hc, by omega, hm⟩

/-- A block that has been read, changed from where the piece starts and then as far as it goes. -/
theorem fills_part {old : Block} {ptr' : Buffer} (hptr : ∀ j, ptr' j =
    if j < cut p n (i+1) - cut p n i then (w₀.user (buf + cut p n i + j)).getD 0
    else old ((p + cut p n i) % SFS_BLOCKSIZE + j)) :
    Fills w₀ buf p n i old (fun j => if (p + cut p n i) % SFS_BLOCKSIZE ≤ j
      then ptr' (j - (p + cut p n i) % SFS_BLOCKSIZE) else old j) := by
  intro y _
  generalize (p + cut p n i) % SFS_BLOCKSIZE = skip at *
  by_cases hstart : skip ≤ y
  · simp only [if_pos hstart, hptr]
    by_cases hend : y < skip + (cut p n (i+1) - cut p n i)
    · rw [if_pos (by omega), if_pos ⟨hstart, hend⟩, given, Nat.add_assoc]
    · rw [if_neg (by omega), if_neg (fun hin => hend hin.2), Nat.add_sub_cancel' hstart]
  · simp only [if_neg hstart, if_neg (fun hin => hstart (And.left hin))]

theorem partial_goes (h : Reached w₀ buf p n i (u, w)) (hi : i < pieces p n) :
    WriteGoes w₀ buf p n i 1
      (sfsPartialio ((p + cut p n i) % SFS_BLOCKSIZE) (cut p n (i+1) - cut p n i) u w) := by
  have hwithin := within_piece hi
  have huio : u = ⟨buf + cut p n i, p + cut p n i, n - cut p n i, .write⟩ := h.uio
  have hrw : u.rw = .write := by rw [huio]
  have hbase : u.base = buf + cut p n i := by rw [huio]
  have hresid : cut p n (i+1) - cut p n i ≤ u.resid := by
    rw [huio]
    exact Nat.sub_le_sub_right hwithin.all _
  have hsmall : u.base < 2^32 := by
    rw [hbase]
    exact h.memory
  rw [sfsPartialio, if_neg (Nat.not_lt.mpr hwithin.inside)]
  obtain ⟨e, w', hbmap, hfail⟩ | ⟨d, w', hbmap, hblock, hspace, hm⟩ := h.bmap hi
  · simp only [hbmap]
    exact hfail
  · have huser : w'.user = w₀.user := hm.grown.kept.user.trans h.kept.user
    have hself : mapped w' (home p + i) = d := by rw [hm.mapped, update_self]
    have hheld : Held w' d := by
      have hheld' := hm.grown.sound.held (home p + i)
      rw [hself] at hheld'
      exact hheld' hm.nonzero
    have hload : loadBlock u.rw d w' = .ok (w'.disk d) := by
      rw [loadBlock, if_neg hm.nonzero]
      exact sfsReadblock_ok hm.grown.sound hheld.1
    simp only [hbmap, hload]
    by_cases hmem : Readable w'.user u.base (cut p n (i+1) - cut p n i)
    · obtain ⟨ptr', hmove, hptr⟩ := uiomove_moves _ hsmall hrw hresid hmem
        (fun j => w'.disk d ((p + cut p n i) % SFS_BLOCKSIZE + j))
      have hfits : Fits w₀ buf p n i := by
        refine ⟨hblock, ?_, hspace⟩
        rw [hbase, huser] at hmem
        exact (readable_iff hwithin.le).mp hmem
      have hfills : SfsWrite.Fills w₀ buf p n i (w'.disk d)
          (fun j => if (p + cut p n i) % SFS_BLOCKSIZE ≤ j then ptr' (j - (p + cut p n i) % SFS_BLOCKSIZE)
            else w'.disk d j) := by
        exact fills_part fun j => by rw [hptr j, hbase, huser]
      obtain ⟨w'', hwrite, -, hreached⟩ := h.write hi hm hfits hfills
      simp only [hmove, hrw, if_true]
      refine ⟨none, u.advance (cut p n (i+1) - cut p n i), w'', ?_, .one hfits hreached⟩
      simp only [hwrite]
    · obtain ⟨e, ptr', hmove⟩ := uiomove_fails hsmall hrw hresid
        (by have hinside := hwithin.inside; unfold SFS_BLOCKSIZE at hinside; omega) hmem
        (fun j => w'.disk d ((p + cut p n i) % SFS_BLOCKSIZE + j))
      simp only [hmove]
      apply h.fail e hm.grown
      intro hfits
      apply hmem
      rw [hbase, huser]
      exact (readable_iff hwithin.le).mpr hfits.memory

/-- The device takes one sector from the caller's memory, or nothing. -/
theorem lhdIo_one (hd : d < w.nblocks) (hs : WellFormed w) (base : ℕ) :
    lhdIo ⟨base, d * SFS_BLOCKSIZE % 2^32, SFS_BLOCKSIZE, .write⟩ w =
      match uiomove zeros LHD_SECTSIZE ⟨base, d * SFS_BLOCKSIZE % 2^32, SFS_BLOCKSIZE, .write⟩ w.user with
      | (some e, _, u', m) => .ok (some e, u', { w with user := m })
      | (none, data, u', m) => .ok (none, u', { w with user := m, disk := update w.disk (d % 2^23) data }) := by
  have hdevice := hs.device
  have hwords := hs.words
  have hsector : d * SFS_BLOCKSIZE % 2^32 / LHD_SECTSIZE % 2^32 = d % 2^23 := by
    unfold SFS_BLOCKSIZE LHD_SECTSIZE
    omega
  have haligned : d * SFS_BLOCKSIZE % 2^32 % LHD_SECTSIZE = 0 := by
    unfold SFS_BLOCKSIZE LHD_SECTSIZE
    omega
  have hlen : SFS_BLOCKSIZE / LHD_SECTSIZE = 1 := rfl
  have hrem : SFS_BLOCKSIZE % LHD_SECTSIZE = 0 := rfl
  simp only [lhdIo, haligned, hrem, ne_eq, not_true_eq_false, or_self, if_false, hsector, hlen]
  rw [if_neg (by omega)]
  rfl

theorem block_goes (h : Reached w₀ buf p n i (u, w)) (hi : i < pieces p n) (hlow : LowTargets w₀ buf p n)
    (hwhole : cut p n (i+1) = cut p n i + SFS_BLOCKSIZE) : WriteGoes w₀ buf p n i 1 (sfsBlockio u w) := by
  have hwithin := within_piece hi
  have huio : u = ⟨buf + cut p n i, p + cut p n i, n - cut p n i, .write⟩ := h.uio
  have hlen : cut p n (i+1) - cut p n i = SFS_BLOCKSIZE := by omega
  have hskip : (p + cut p n i) % SFS_BLOCKSIZE = 0 := by
    have hinside := hwithin.inside
    omega
  have hall := hwithin.all
  have hresid : ¬n - cut p n i < SFS_BLOCKSIZE := by omega
  unfold sfsBlockio
  obtain ⟨e, w', hbmap, hfail⟩ | ⟨d, w', hbmap, hblock, hspace, hm⟩ := h.bmap hi
  · simp only [hbmap]
    exact hfail
  · have huser : w'.user = w₀.user := hm.grown.kept.user.trans h.kept.user
    have hself : mapped w' (home p + i) = d := by rw [hm.mapped, update_self]
    have hheld : Held w' d := by
      have hheld' := hm.grown.sound.held (home p + i)
      rw [hself] at hheld'
      exact hheld' hm.nonzero
    let v : Uio := ⟨buf + cut p n i, d * SFS_BLOCKSIZE % 2^32, SFS_BLOCKSIZE, .write⟩
    have hio := lhdIo_one hheld.1 hm.grown.sound (buf + cut p n i)
    simp only [hbmap, if_neg hm.nonzero]
    by_cases hmem : Readable w'.user (buf + cut p n i) SFS_BLOCKSIZE
    · have hfits : Fits w₀ buf p n i := by
        refine ⟨hblock, ?_, hspace⟩
        rw [huser, ← hlen] at hmem
        exact (readable_iff hwithin.le).mp hmem
      have hd : d < 2^23 := by
        refine hlow i d ?_ hwhole (h.target hm)
        intro c hc
        by_cases hci : c = i
        · rwa [hci]
        · exact h.fits c (by omega)
      obtain ⟨data, hmove, hdata⟩ := uiomove_moves (u := v) (m := w'.user) _ h.memory rfl (Nat.le_refl _) hmem zeros
      have hfills : SfsWrite.Fills w₀ buf p n i (w'.disk d) data := by
        intro y hy
        rw [hdata y, if_pos hy, hskip, hlen, if_pos ⟨Nat.zero_le y, by omega⟩, given, huser, Nat.sub_zero, Nat.add_assoc]
      obtain ⟨w'', -, hw'', hreached⟩ := h.write hi hm hfits hfills
      refine ⟨none, u.advance (cut p n (i+1) - cut p n i), w'', ?_, .one hfits hreached⟩
      rw [show uiomove zeros LHD_SECTSIZE ⟨buf + cut p n i, d * SFS_BLOCKSIZE % 2^32, SFS_BLOCKSIZE, .write⟩ w'.user =
        (none, data, v.advance SFS_BLOCKSIZE, w'.user) from hmove, Nat.mod_eq_of_lt hd] at hio
      subst huio
      simp only [if_neg hresid, hio, hw'', hlen, v, Uio.advance, Except.ok.injEq, Prod.mk.injEq, Uio.mk.injEq, and_true,
        true_and]
      omega
    · obtain ⟨e, data, hmove⟩ := uiomove_fails (u := v) (m := w'.user) h.memory rfl (Nat.le_refl _)
        (show (512 : ℕ) < 2^32 by decide) hmem zeros
      rw [show uiomove zeros LHD_SECTSIZE ⟨buf + cut p n i, d * SFS_BLOCKSIZE % 2^32, SFS_BLOCKSIZE, .write⟩ w'.user =
        (some e, data, v, w'.user) from hmove] at hio
      subst huio
      have hgoal : WriteGoes w₀ buf p n i 1 (.ok (some e, ⟨buf + cut p n i, p + cut p n i, n - cut p n i, .write⟩, w')) := by
        apply h.fail e hm.grown
        intro hfits
        apply hmem
        rw [huser, ← hlen]
        exact (readable_iff hwithin.le).mpr hfits.memory
      simp only [if_neg hresid, hio, v]
      have hoff : d * SFS_BLOCKSIZE % 2^32 - d * SFS_BLOCKSIZE % 2^32 + (p + cut p n i) = p + cut p n i := by omega
      have hres : SFS_BLOCKSIZE + (n - cut p n i) - SFS_BLOCKSIZE = n - cut p n i := by omega
      rw [hoff, hres]
      exact hgoal

theorem write_carries (hlow : LowTargets w₀ buf p n) :
    Carries (Fits w₀ buf p n) (Reached w₀ buf p n) (Stopped w₀ buf p n) p n := by
  have huio : ∀ i u w, Reached w₀ buf p n i (u, w) →
      u = ⟨buf + cut p n i, p + cut p n i, n - cut p n i, .write⟩ := fun _ _ _ h => h.uio
  refine ⟨?_, ?_, fun i u w hi h => partial_goes h hi, fun i u w hi h hwhole => block_goes h hi hlow hwhole⟩
  · intro i u w h
    rw [huio i u w h]
  · intro i u w h
    rw [huio i u w h]

theorem pasted_zero (x : ℕ) : pasted w₀ buf p 0 x = byteAt w₀ x := if_neg (by omega)

theorem reached_start (h : WellFormed w₀) (hbuf : buf < 2^32) : Reached w₀ buf p n 0 (⟨buf, p, n, .write⟩, w₀) := by
  refine ⟨h, ?_, Kept.refl w₀, ?_, fun _ _ => rfl, by simp, ?_, ?_, fun _ he => ⟨he, rfl⟩, ?_⟩
  · simp [cut_zero]
  · intro x
    rw [cut_zero, pasted_zero]
  · intro d
    rw [need_zero]
    exact left_zero.symm
  · intro c hc
    omega
  · rwa [cut_zero]

/-- The end of `sfs_io`, where the file grows. -/
theorem outcome_of_transfer {e : Option Errno} (ht : transfer ⟨buf, p, n, .write⟩ w₀ = .ok (e, u, w))
    (hfits : ∀ i < k, Fits w₀ buf p n i)
    (hends : (e = none ∧ k = pieces p n) ∨ (e ≠ none ∧ k < pieces p n ∧ ¬Fits w₀ buf p n k))
    (h : Stopped w₀ buf p n k (u, w)) :
    ∃ u' w', sfsIo ⟨buf, p, n, .write⟩ w₀ = .ok (e, u', w') ∧ Outcome w₀ buf p n k e u' w' := by
  have huio : u = ⟨buf + cut p n k, p + cut p n k, n - cut p n k, .write⟩ := h.uio
  have hsize : w.size = w₀.size := h.kept.size
  have hle : cut p n k ≤ n := Nat.min_le_left _ _
  have hgrows : (u.resid ≠ n ∧ w.size < u.offset) ↔ (0 < cut p n k ∧ w₀.size < p + cut p n k) := by
    rw [huio, hsize]
    simp only
    omega
  have hio : sfsIo ⟨buf, p, n, .write⟩ w₀ = .ok (e, u,
      if 0 < cut p n k ∧ w₀.size < p + cut p n k then { w with size := u.offset % 2^32 } else w) := by
    have hread : ¬Rw.write = Rw.read := by decide
    simp only [sfsIo, hread, false_and, if_false, Nat.sub_zero, ht, true_and, Nat.add_zero, hgrows]
  refine ⟨u, _, hio, hfits, hends, by rw [huio], ?_, ?_, ?_, ?_⟩
  · split
    · exact h.sound.resize _ (Nat.mod_lt _ (by decide))
    · exact h.sound
  · intro x
    rw [← h.data x]
    split <;> rfl
  · split
    · show u.offset % 2^32 = _
      rw [huio]
    · exact hsize
  · intro e he
    obtain ⟨he', hdisk⟩ := h.foreign e he
    split
    · exact ⟨he', hdisk⟩
    · exact ⟨he', hdisk⟩

theorem sfsIo_write (h : WellFormed w₀) (hbuf : buf < 2^32) (hlow : LowTargets w₀ buf p n) :
    ∃ m e u w, sfsIo ⟨buf, p, n, .write⟩ w₀ = .ok (e, u, w) ∧ Outcome w₀ buf p n m e u w := by
  obtain ⟨e, u, w, hrun, hprogress⟩ := (write_carries hlow).transfer (reached_start h hbuf)
  cases hprogress with
  | done _ hok hat =>
    simp only [Nat.zero_add] at hok hat
    obtain ⟨u', w', hio, hout⟩ := outcome_of_transfer hrun hok (.inl ⟨rfl, rfl⟩) hat.stopped
    exact ⟨pieces p n, none, u', w', hio, hout⟩
  | failed e _ m hm hok hbad hnear =>
    simp only [Nat.zero_add] at hok hbad hnear
    obtain ⟨u', w', hio, hout⟩ := outcome_of_transfer hrun hok (.inr ⟨by simp, hm, hbad⟩) hnear
    exact ⟨m, some e, u', w', hio, hout⟩

/-- What has been written are bytes of the caller's. -/
theorem Outcome.byte {m j : ℕ} {e : Option Errno} (h : Outcome w₀ buf p n m e u w) (hj : j < cut p n m) :
    w₀.user (buf+j) = some (byteAt w (wrapped p + j)) := by
  obtain ⟨i, hi, hle, hlt⟩ := piece_of hj
  obtain ⟨b, hb⟩ := Option.ne_none_iff_exists'.mp ((h.fits i hi).memory j hle hlt).2
  rw [h.data, pasted, if_pos (by omega), Nat.add_sub_cancel_left, given, hb]
  rfl

theorem Outcome.outside {m x : ℕ} {e : Option Errno} (h : Outcome w₀ buf p n m e u w)
    (hx : ¬(wrapped p ≤ x ∧ x < wrapped p + cut p n m)) : byteAt w x = byteAt w₀ x := by
  rw [h.data, pasted, if_neg hx]

/-- A write that fails has changed nothing iff what it has written was there. -/
theorem Outcome.unchanged_iff {m : ℕ} {e : Option Errno} (h : Outcome w₀ buf p n m e u w) (hm : m < pieces p n) :
    Unchanged w₀ w ↔ m = 0 ∨ Already w₀ buf p n m := by
  have hsize := h.size
  constructor
  · intro hsame
    by_cases hzero : m = 0
    · exact .inl hzero
    · have hcut : 0 < cut p n m := by
        simp only [pieces, cut, SFS_BLOCKSIZE] at *
        omega
      refine .inr ⟨fun j hj => ?_, ?_⟩
      · rw [h.byte hj, hsame.bytes]
      · rw [hsame.size] at hsize
        by_cases hgrows : w₀.size < p + cut p n m
        · rw [if_pos ⟨hcut, hgrows⟩] at hsize
          exact .inr hsize.symm
        · exact .inl (Nat.not_lt.mp hgrows)
  · rintro (hzero | ⟨hbytes, hend⟩)
    · rw [hzero, cut_zero] at hsize
      refine ⟨fun x => ?_, hsize⟩
      rw [h.data, hzero, cut_zero, pasted_zero]
    · refine ⟨fun x => ?_, ?_⟩
      · by_cases hx : wrapped p ≤ x ∧ x < wrapped p + cut p n m
        · obtain ⟨j, rfl⟩ := Nat.exists_eq_add_of_le hx.1
          have hold := hbytes j (by omega)
          rw [h.byte (by omega), Option.some.injEq] at hold
          exact hold
        · exact h.outside hx
      · rw [hsize]
        split <;> omega

/-- A write of at least one byte that succeeds ends within the largest file. -/
theorem Outcome.end_small {e : Option Errno} (h : Outcome w₀ buf p n (pieces p n) e u w) (hn : 0 < n) :
    wrapped p + n ≤ SFS_BLOCKSIZE * maxBlocks := by
  have hpieces : 0 < pieces p n := by
    simp only [pieces, SFS_BLOCKSIZE]
    omega
  have hlast := (h.fits (pieces p n - 1) (by omega)).block
  simp only [pieces, home, wrapped, SFS_BLOCKSIZE, maxBlocks, SFS_NDIRECT, SFS_NINDIRECT, SFS_DBPERIDB] at *
  omega

/-- A write that succeeds has put its bytes where they belong iff positions did not wrap around. -/
theorem Outcome.replaced_iff {e : Option Errno} (h : Outcome w₀ buf p n (pieces p n) e u w) :
    Replaced w₀ w buf p n ↔ n = 0 ∨ p < 2^41 := by
  have hsize := h.size
  rw [cut_all] at hsize
  have hword := h.sound.size
  by_cases hn : n = 0
  · subst hn
    refine ⟨fun _ => .inl rfl, fun _ => ⟨fun j hj => absurd hj (Nat.not_lt_zero j), fun x _ => ?_, hsize⟩⟩
    rw [h.data, cut_all, pasted_zero]
  · have hend := h.end_small (Nat.pos_of_ne_zero hn)
    have hlarge : SFS_BLOCKSIZE * maxBlocks = 73216 := by decide
    constructor
    · intro hreplaced
      have hsize' := hreplaced.size
      rw [if_neg hn] at hsize'
      omega
    · rintro (hzero | hp)
      · exact absurd hzero hn
      · have hwrapped : wrapped p = p := Nat.mod_eq_of_lt hp
        rw [hwrapped] at hend
        refine ⟨?_, ?_, ?_⟩
        · intro j hj
          have hbyte := h.byte (by rwa [cut_all])
          rwa [hwrapped] at hbyte
        · intro x hx
          exact h.outside (by rwa [cut_all, hwrapped])
        · rw [hsize, if_neg hn]
          split <;> omega

theorem toInt_count (k : UInt32) : k.toUInt64.toInt64.toInt = k.toNat := by
  have hlt := k.toNat_lt
  have hbits : k.toUInt64.toInt64.toInt = k.toUInt64.toBitVec.toInt := rfl
  rw [hbits, BitVec.toInt_eq_toNat_of_lt]
  · simp
  · simp
    omega

/-- No position overflows: before it could, the write fails. -/
theorem Outcome.position {e : Option Errno} {pos : Int64} {size : UInt32} (hpos : 0 ≤ pos.toInt)
    (h : Outcome w₀ buf pos.toInt.toNat size.toNat (pieces pos.toInt.toNat size.toNat) e u w) :
    (pos + size.toUInt64.toInt64).toInt = pos.toInt + size.toNat := by
  have hword := pos.toInt_lt
  have hend : 0 < size.toNat → wrapped pos.toInt.toNat + size.toNat ≤ SFS_BLOCKSIZE * maxBlocks := h.end_small
  have hlarge : SFS_BLOCKSIZE * maxBlocks = 73216 := by decide
  rw [Int64.toInt_add, toInt_count, Int.bmod_def]
  unfold wrapped at hend
  omega

/-- A write that reports an error has to leave the file as it was. -/
theorem WriteRight.unchanged {space : ℕ → ℕ} {t : ℕ} {size : UInt32} {d : Desc (Except Stop World)} {e : Errno}
    (h : WriteRight space t buf size d w) (he : (sysCall sfsVnode space t (.write buf size) d).1.result = .error e) :
    ∃ w', (sysCall sfsVnode space t (.write buf size) d).2.world = .ok w' ∧ Unchanged w w' := by
  obtain ⟨w', hw', hsame⟩ := h
  rw [he] at hsame
  exact ⟨w', hw', hsame⟩

/-- What `sys_write` does with a file on an SFS volume. -/
theorem sysWrite_right_iff (space : ℕ → ℕ) (t buf : ℕ) (size : UInt32) (d : Desc (Except Stop World)) (w : World)
    (hworld : d.world = .ok w) (h : WellFormed w) (hflags : d.flags ≠ O_RDONLY) (hpos : 0 ≤ d.seekLocation.toInt)
    (hbuf : buf < 2^32) (hlow : LowTargets w buf d.seekLocation.toInt.toNat size.toNat) :
    WriteRight space t buf size d w ↔ WritesCleanly w buf d.seekLocation.toInt.toNat size.toNat := by
  by_cases hnull : buf = 0
  · have hcall : sysCall sfsVnode space t (.write buf size) d = (⟨.error .efault, none⟩, d) := by
      simp [sysCall, SharedDescriptor.Call.null, hnull]
    refine ⟨fun _ => .inl hnull, fun _ => ?_⟩
    rw [WriteRight, hcall]
    exact ⟨w, hworld, fun _ => rfl, rfl⟩
  · obtain ⟨m, e, u, w', hio, hout⟩ := sfsIo_write h hbuf hlow
    have hcall : sysCall sfsVnode space t (.write buf size) d =
        SharedDescriptor.moveData sfsVnode space t ⟨.write, buf, size⟩ d := by
      simp [sysCall, SharedDescriptor.Call.null, hnull, SharedDescriptor.lockedCall, SharedDescriptor.writeToDisk, hflags]
    have hvop : SharedDescriptor.vopIo sfsVnode space t ⟨.write, buf, size⟩ d =
        sfsRw (SharedDescriptor.userUio space t ⟨.write, buf, size⟩ d) (.ok w) := by
      rw [← hworld]
      rfl
    have hfrom : fromUio (SharedDescriptor.userUio space t ⟨.write, buf, size⟩ d) =
        ⟨buf, d.seekLocation.toInt.toNat, size.toNat, .write⟩ := rfl
    rw [WriteRight, hcall, SharedDescriptor.moveData, hvop]
    simp only [sfsRw, hfrom, hio]
    obtain ⟨rfl, rfl⟩ | ⟨hfailed, hm, hbad⟩ := hout.ends
    · have hresid : u.resid = 0 := by rw [hout.resid, cut_all, Nat.sub_self]
      have hcount : size - UInt32.ofNat u.resid = size := by
        rw [hresid]
        simp
      simp only [hcount]
      constructor
      · rintro ⟨w'', hw'', -, hreplaced, -⟩
        cases hw''
        exact .inr (.inl ⟨hout.fits, hout.replaced_iff.mp hreplaced⟩)
      · rintro (hzero | ⟨-, hplace⟩ | ⟨m, hm, -, hbad, -⟩)
        · exact absurd hzero hnull
        · exact ⟨w', rfl, Nat.le_refl size.toNat, hout.replaced_iff.mpr hplace, hout.position hpos⟩
        · exact absurd (hout.fits m hm) hbad
    · cases e with
      | none => exact absurd rfl hfailed
      | some e =>
        simp only
        constructor
        · rintro ⟨w'', hw'', hsame⟩
          cases hw''
          exact .inr (.inr ⟨m, hm, hout.fits, hbad, (hout.unchanged_iff hm).mp hsame⟩)
        · rintro (hzero | ⟨hall, -⟩ | ⟨m', hm', hfits, hbad', hchanged⟩)
          · exact absurd hzero hnull
          · exact absurd (hall m hm) hbad
          · -- the first piece that cannot be written is the same
            have hfirst : m' = m := by
              by_contra hne
              by_cases hlt : m' < m
              · exact hbad' (hout.fits m' hlt)
              · exact hbad (hfits m (by omega))
            rw [hfirst] at hchanged
            exact ⟨w', rfl, (hout.unchanged_iff hm).mpr hchanged⟩

/-- A new file on a volume with one free block, and a page of the caller's. -/
def oneFree : World where
  size := 0
  direct := fun _ => 0
  indirect := 0
  freemap := fun d => d != 3
  nbits := 4096
  nblocks := 4
  disk := fun _ => zeros
  dBlocks := 4
  user := fun a => if 4096 ≤ a ∧ a < 8192 then some 7 else none

/-- Opened for writing, with the position at the last byte of the first block. -/
def atEdge : Desc (Except Stop World) := ⟨O_WRONLY, 511, .ok oneFree⟩

theorem oneFree_mapped (c : ℕ) : mapped oneFree c = 0 := by simp [mapped, oneFree]

theorem oneFree_free (h : Free oneFree d) : d = 3 := by
  have hclear := h.2
  simpa [oneFree] using hclear

theorem oneFree_sound : WellFormed oneFree := by
  refine ⟨by decide, ?_, by decide, by decide, ?_, fun h => absurd rfl h, ?_, ?_⟩
  · intro d hd
    rw [oneFree_free hd]
    decide
  · intro c hc
    exact absurd (oneFree_mapped c) hc
  · intro c _ _ hc
    exact absurd (oneFree_mapped c) hc
  · intro c hc
    exact absurd (oneFree_mapped c) hc

/-- The last byte of the block can be written. -/
theorem lastByte_right : WriteRight (fun _ => 0) 0 4096 1 atEdge oneFree := by
  have hlow : LowTargets oneFree 4096 atEdge.seekLocation.toInt.toNat (1 : UInt32).toNat := by
    intro i d _ _ htarget
    obtain ⟨hne, -⟩ | ⟨-, hfree, -⟩ := htarget
    · exact absurd (oneFree_mapped _) hne
    · rw [oneFree_free hfree]
      decide
  have hpos : 0 ≤ atEdge.seekLocation.toInt := by decide
  have hiff := sysWrite_right_iff (fun _ => 0) 0 4096 1 atEdge oneFree rfl oneFree_sound (by decide) hpos (by decide) hlow
  refine hiff.mpr (.inr (.inl ⟨?_, .inr (by decide)⟩))
  · intro i hi
    have hpieces : pieces atEdge.seekLocation.toInt.toNat (1 : UInt32).toNat = 1 := by decide
    have hzero : i = 0 := by omega
    subst hzero
    refine ⟨by decide, ?_, by decide +kernel⟩
    intro j _ hj
    have hcut : cut atEdge.seekLocation.toInt.toNat (1 : UInt32).toNat (0+1) = 1 := by decide
    have hj0 : j = 0 := by omega
    subst hj0
    decide

/-- The byte after it cannot, and the call reports an error; the first one has
been written all the same, and the file has grown up to it. -/
theorem twoBytes_grows :
    (sysCall sfsVnode (fun _ => 0) 0 (.write 4096 2) atEdge).1.result = .error .enospc ∧
      (oneFree.size, byteAt oneFree 511) = (0, 0) ∧
      (match (sysCall sfsVnode (fun _ => 0) 0 (.write 4096 2) atEdge).2.world with
        | .ok w => (w.size, byteAt w 511)
        | .error _ => (0, 0)) = (512, 7) ∧
      ¬WriteRight (fun _ => 0) 0 4096 2 atEdge oneFree := by
  have hresult : (sysCall sfsVnode (fun _ => 0) 0 (.write 4096 2) atEdge).1.result = .error .enospc := by
    decide +kernel
  have hgrown : (match (sysCall sfsVnode (fun _ => 0) 0 (.write 4096 2) atEdge).2.world with
      | .ok w => (w.size, byteAt w 511)
      | .error _ => (0, 0)) = (512, 7) := by
    decide +kernel
  refine ⟨hresult, by decide, hgrown, ?_⟩
  intro hright
  obtain ⟨w', hw', hsame⟩ := hright.unchanged hresult
  simp only [hw', Prod.mk.injEq] at hgrown
  have hsize := hgrown.1
  rw [hsame.size] at hsize
  cases hsize

end OS161.SfsWrite
