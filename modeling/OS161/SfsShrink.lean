import OS161.SfsArray
import OS161.SfsBlockio
import OS161.SfsTruncate

/-!
# What is left past the end of a file

A file that has been cut off keeps the whole of its last block, and the bytes in
it past the length are not cleared. When the file grows over them again they are
there, unless they were zeros before.
-/

set_option autoImplicit false

namespace OS161.SfsShrink

open Function OS161.Vfs OS161.CopyInOut OS161.Sfs OS161.SfsIo OS161.Pieces OS161.SfsPieces OS161.SfsWrite OS161.SfsRead
open OS161.SfsOffsets (largestFile)
open OS161.SfsBlockio (oneBlock oneBlock_sound oneBlock_mapped)
open OS161.SfsArray (Write writeStep Low)
open OS161.SfsTruncate OS161.Runs

inductive Op where
  | write (v : Write)
  | truncate (len : ℕ)

def opStep : Op → World → Except Stop World
  | .write v, w => writeStep v w
  | .truncate len, w => sfsItrunc len w

/-- The byte is one of those that a write moves, as many as it reports. -/
def rewrites (x : ℕ) : Op → World → Prop
  | .write v, w => ∃ e u w', sfsIo ⟨v.buf, v.pos, v.len, .write⟩ (v.start w) = .ok (e, u, w') ∧
      v.pos ≤ x ∧ x < v.pos + (v.len - u.resid)
  | .truncate _, _ => False

/-- A write goes to the blocks it should: neither its position nor the offset of a block wraps around. -/
def Straight : Op → World → Prop
  | .write v, w => v.buf < 2^32 ∧ v.pos < 2^41 ∧ Low v w
  | .truncate _, _ => True

/-- There are only zeros past the length in the blocks that the file keeps. -/
def Clean (len : ℕ) (w : World) : Prop :=
  ∀ x, len ≤ x → x < w.size → ¬Past (blocksOf len) (x / SFS_BLOCKSIZE) → byteAt w x = 0

/-- The byte reads as zero. -/
def ReadsZero (w : World) (x : ℕ) : Prop :=
  byteAt w x = 0 ∧ (w.size ≤ largestFile → ∀ buf m, Readable m buf 1 →
    ∃ u w', sfsIo ⟨buf, x, 1, .read⟩ { w with user := m } = .ok (none, u, w') ∧ w'.user buf = some 0)

/-- What was cut off at `len` does not come back, for any byte that is not written again. -/
def Vanishes (len : ℕ) (ops : List Op) (w w' : World) : Prop :=
  ∀ x, len ≤ x → x < w.size → Guarded opStep (fun op s => ¬rewrites x op s) (.truncate len :: ops) w →
    x < w'.size → ReadsZero w' x

variable {w w' w₀ : World} {v : Write} {op : Op} {ops : List Op} {len x buf p n : ℕ} {u : Uio} {e : Option Errno}

/-- The device and the bitmap are those of the volume throughout. -/
theorem write_kept (h : WellFormed w) (hbuf : buf < 2^32) (hlow : LowTargets w buf p n)
    (hio : sfsIo ⟨buf, p, n, .write⟩ w = .ok (e, u, w')) : w'.nbits = w.nbits ∧ w'.nblocks = w.nblocks := by
  obtain ⟨e', u', w'', hrun, hprogress⟩ := (write_carries hlow).transfer (reached_start h hbuf)
  have hkept : Kept w w'' := by
    cases hprogress with
    | done _ _ hat => exact hat.kept
    | failed e _ m _ _ _ hnear => exact hnear.kept
  simp only [sfsIo, reduceCtorEq, false_and, if_false, Nat.sub_zero, hrun, Except.ok.injEq, Prod.mk.injEq] at hio
  rw [← hio.2.2]
  split_ifs
  · exact ⟨hkept.nbits, hkept.nblocks⟩
  · exact ⟨hkept.nbits, hkept.nblocks⟩

/-- One write. -/
theorem write_spares (h : Mounted w) (hgood : Straight (.write v) w) :
    ∃ w', writeStep v w = .ok w' ∧ Mounted w' ∧
      ∀ x, ¬rewrites x (.write v) w → byteAt w' x = byteAt w x := by
  obtain ⟨hbuf, hpos, hlow⟩ := hgood
  have hsound : WellFormed (v.start w) := h.sound.withUser v.user
  obtain ⟨m, e, u, w', hio, hout⟩ := sfsIo_write hsound hbuf hlow
  obtain ⟨hnbits, hnblocks⟩ := write_kept hsound hbuf hlow hio
  have hbits : w'.nblocks ≤ w'.nbits := by
    rw [hnbits, hnblocks]
    exact h.bits
  refine ⟨w', by simp only [writeStep, hio], ⟨hout.sound, hbits⟩, ?_⟩
  intro x hx
  have hwrapped : wrapped v.pos = v.pos := Nat.mod_eq_of_lt hpos
  have hcut : cut v.pos v.len m ≤ v.len := Nat.min_le_left _ _
  have houtside : byteAt w' x = byteAt (v.start w) x := by
    apply hout.outside
    rintro ⟨hle, hlt⟩
    refine hx ⟨e, u, w', hio, by omega, ?_⟩
    rw [hout.resid]
    omega
  exact houtside

/-- One truncation: each byte is as before, or zero. -/
theorem truncate_spares (h : Mounted w) (len : ℕ) : ∃ w', sfsItrunc len w = .ok w' ∧ Mounted w' ∧
    ∀ x, byteAt w' x = if Past (blocksOf len % 2^32) (x / SFS_BLOCKSIZE) then 0 else byteAt w x := by
  obtain ⟨w', hrun, hdiscards, -⟩ := sfsItrunc_cuts h len
  refine ⟨_, hrun, ⟨hdiscards.mounted.sound.resize _ (Nat.mod_lt _ (by decide)), hdiscards.mounted.bits⟩, ?_⟩
  intro x
  show byteAt w' x = _
  unfold byteAt
  by_cases hpast : Past (blocksOf len % 2^32) (x / SFS_BLOCKSIZE)
  · rw [if_pos hpast, blockData, if_pos (hdiscards.gone _ hpast)]
    rfl
  · rw [if_neg hpast, hdiscards.data _ hpast]

/-- A step of either kind: a zero that is not written stays zero. -/
theorem step_spares (h : Mounted w) (hgood : Straight op w) :
    ∃ w', opStep op w = .ok w' ∧ Mounted w' ∧ ∀ x, ¬rewrites x op w → byteAt w x = 0 → byteAt w' x = 0 := by
  cases op with
  | write v =>
    obtain ⟨w', hrun, hmounted, hsame⟩ := write_spares h hgood
    exact ⟨w', hrun, hmounted, fun x hx hzero => (hsame x hx).trans hzero⟩
  | truncate len =>
    obtain ⟨w', hrun, hmounted, hbyte⟩ := truncate_spares h len
    refine ⟨w', hrun, hmounted, fun x _ hzero => ?_⟩
    rw [hbyte, hzero, ite_self]

theorem run_spares (h : Mounted w) (hgood : Guarded opStep Straight ops w) :
    ∃ w', run opStep ops w = .ok w' ∧ Mounted w' ∧
      ∀ x, Guarded opStep (fun op s => ¬rewrites x op s) ops w → byteAt w x = 0 → byteAt w' x = 0 := by
  induction ops generalizing w with
  | nil => exact ⟨w, rfl, h, fun _ _ hzero => hzero⟩
  | cons op ops ih =>
    obtain ⟨w₁, hstep, hmounted, hspares⟩ := step_spares h hgood.1
    obtain ⟨w', hrun, hmounted', hspares'⟩ := ih hmounted (hgood.2 w₁ hstep)
    refine ⟨w', run_cons_ok.mpr ⟨w₁, hstep, hrun⟩, hmounted', ?_⟩
    intro x hx hzero
    exact hspares' x (hx.2 w₁ hstep) (hspares x hx.1 hzero)

/-- A byte that is zero is read as zero. -/
theorem reads_zero (h : WellFormed w) (hx : x < w.size) (hzero : byteAt w x = 0) : ReadsZero w x := by
  refine ⟨hzero, ?_⟩
  intro hsize buf m hm
  have hone : min 1 (w.size - x) = 1 := by omega
  have hlow : LowBlocks { w with user := m } x (min 1 (w.size - x)) := by
    intro i hwhole
    rw [hone] at hwhole
    simp only [cut, SFS_BLOCKSIZE] at hwhole
    omega
  obtain ⟨u, w', hio, -, -, hput⟩ := sfsIo_read (n := 1) (h.withUser m) hsize (by rw [hone]; exact hm) hlow
  refine ⟨u, w', hio, ?_⟩
  have hbyte := hput.bytes 0 (by rw [hone]; exact Nat.zero_lt_one)
  rw [Nat.add_zero, Nat.add_zero] at hbyte
  rw [hbyte]
  exact congrArg some hzero

/-- A truncation with nothing past the length in what it keeps, and whatever comes after it. -/
theorem run_vanishes (w : World) (len : ℕ) (ops : List Op) (h : Mounted w) (hlen : len < w.size) (hclean : Clean len w)
    (hgood : Guarded opStep Straight (.truncate len :: ops) w) :
    ∃ w', run opStep (.truncate len :: ops) w = .ok w' ∧ Vanishes len ops w w' := by
  have hword := h.sound.size
  have hblocks : blocksOf len % 2^32 = blocksOf len := by
    unfold blocksOf SFS_BLOCKSIZE
    omega
  obtain ⟨w₁, hstep, hmounted, hbyte⟩ := truncate_spares h len
  obtain ⟨w', hrun, hmounted', hspares⟩ := run_spares hmounted (hgood.2 w₁ hstep)
  refine ⟨w', run_cons_ok.mpr ⟨w₁, hstep, hrun⟩, ?_⟩
  intro x hle hlt hx hend
  refine reads_zero hmounted'.sound hend (hspares x (hx.2 w₁ hstep) ?_)
  rw [hbyte, hblocks]
  by_cases hpast : Past (blocksOf len) (x / SFS_BLOCKSIZE)
  · rw [if_pos hpast]
  · rw [if_neg hpast]
    exact hclean x hle hlt hpast

theorem oneBlock_mounted {d : ℕ} (hd : d+1 < 2^32) : Mounted (oneBlock d) := ⟨oneBlock_sound hd, Nat.le_refl _⟩

/-- One byte, at the end of what was the file. -/
def lastAgain : Write := ⟨511, 4096, 1, (oneBlock 5).user⟩

/-- With nothing left of the file, nothing comes back. -/
theorem emptied_vanishes : ∃ w', run opStep [.truncate 0, .write lastAgain] (oneBlock 5) = .ok w' ∧
    Vanishes 0 [.write lastAgain] (oneBlock 5) w' := by
  have hclean : Clean 0 (oneBlock 5) := by
    intro x _ _ hpast
    refine absurd ?_ hpast
    unfold Past
    split_ifs
    · exact Nat.zero_le _
    · have hzero : blocksOf 0 = 0 := by decide
      unfold SFS_NDIRECT at *
      omega
  refine run_vanishes (oneBlock 5) 0 [.write lastAgain] (oneBlock_mounted (by decide)) (by decide) hclean
    ⟨trivial, fun w₁ hstep => ⟨⟨by decide, by decide, ?_⟩, fun _ _ => trivial⟩⟩
  intro i d _ hwhole _
  have hlen : lastAgain.len = 1 := rfl
  simp only [cut, hlen, SFS_BLOCKSIZE] at hwhole
  omega

/-- Cut off in the middle of its block, the file has the old bytes again when its last byte is written. -/
theorem sevens_return : ∃ w', run opStep [.truncate 100, .write lastAgain] (oneBlock 5) = .ok w' ∧
    w'.size = 512 ∧ byteAt w' 200 = 7 ∧ ¬Vanishes 100 [.write lastAgain] (oneBlock 5) w' := by
  have hresult : ∃ w', run opStep [.truncate 100, .write lastAgain] (oneBlock 5) = .ok w' ∧
      (w'.size = 512 ∧ byteAt w' 200 = 7) := by
    decide +kernel
  obtain ⟨w', hrun, hsize, hbyte⟩ := hresult
  refine ⟨w', hrun, hsize, hbyte, ?_⟩
  intro hvanishes
  have hspared : Guarded opStep (fun op s => ¬rewrites 200 op s) [.truncate 100, .write lastAgain] (oneBlock 5) := by
    refine ⟨id, fun w₁ _ => ⟨?_, fun _ _ => trivial⟩⟩
    rintro ⟨e, u, w₂, -, hle, -⟩
    exact absurd hle (by decide)
  have hzero := (hvanishes 200 (by decide) (by decide) hspared (by rw [hsize]; decide)).1
  rw [hbyte] at hzero
  cases hzero

end OS161.SfsShrink
