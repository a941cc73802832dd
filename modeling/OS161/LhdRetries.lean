import OS161.Sfs
import OS161.SharedDescriptor

/-!
# A disk that fails now and then

`sfs_rwblock` asks the device again after a media error, with the same uio. A read
leaves the uio alone until the sector is there; a write has used it up before the
device has tried, so that the second time there is nothing left to write.
-/

set_option autoImplicit false

namespace OS161.LhdRetries

open Function OS161.Vfs
open OS161.Sfs (Block SFS_BLOCKSIZE)
open OS161.SharedDescriptor (Rw)

def LHD_SECTSIZE : ℕ := 512

/-- What the device makes of a request: it is carried out, or there is a media error, and then
the sector of a write is left with some contents. -/
inductive Answer where
  | ok
  | media (left : Block)

/-- The device with its answers to come, the buffer on the card and the memory of the kernel. -/
structure Lhd where
  sectors : ℕ → Block
  blocks : ℕ
  buf : Block
  answers : ℕ → Answer
  mem : ℕ → UInt8

/-- A transfer to or from the memory of the kernel. -/
structure Uio where
  kbase : ℕ
  iovLen : ℕ
  offset : ℕ
  resid : ℕ
  rw : Rw

def Uio.advance (size : ℕ) (u : Uio) : Uio :=
  ⟨u.kbase + size, u.iovLen - size, u.offset + size, u.resid - size, u.rw⟩

/-- `n` bytes of `src` from `start` on go to `dst`. -/
def memmove (dest : ℕ → UInt8) (dst : ℕ) (src : ℕ → UInt8) (start n : ℕ) : ℕ → UInt8 :=
  fun a => if dst ≤ a ∧ a < dst + n then src (start + (a - dst)) else dest a

def moveBytes (ptr size : ℕ) (u : Uio) (s : Lhd) : Lhd :=
  match u.rw with
  | .read => { s with mem := memmove s.mem u.kbase s.buf ptr size }
  | .write => { s with buf := memmove s.buf ptr s.mem u.kbase size }

/-- Between the buffer on the card, from `ptr` on, and the one iovec. -/
def uiomove (ptr n : ℕ) (u : Uio) (s : Lhd) : Except Stop (Uio × Lhd) :=
  if n = 0 ∨ u.resid = 0 then .ok (u, s)
  else
    let size := min u.iovLen n
    if size = 0 then .error .panic
    else uiomove (ptr + size) (n - size) (u.advance size) (moveBytes ptr size u s)
termination_by n
decreasing_by omega

/-- One request to the device, up to its answer. -/
def lhdRequest (sector : ℕ) (rw : Rw) (s : Lhd) : Option Errno × Lhd :=
  let next := { s with answers := fun i => s.answers (i+1) }
  if s.blocks ≤ sector then (some .einval, s)
  else match s.answers 0, rw with
    | .ok, .read => (none, { next with buf := s.sectors sector })
    | .ok, .write => (none, { next with sectors := update s.sectors sector s.buf })
    | .media _, .read => (some .eio, next)
    | .media left, .write => (some .eio, { next with sectors := update s.sectors sector left })

abbrev LhdResult := Except Stop (Option Errno × Uio × Lhd)

/-- The loop over the sectors. -/
def lhdLoop : (left sector : ℕ) → Uio → Lhd → LhdResult
  | 0, _, u, s => .ok (none, u, s)
  | left+1, sector, u, s =>
    match u.rw with
    | .read =>
      match lhdRequest sector .read s with
      | (some e, s') => .ok (some e, u, s')
      | (none, s') =>
        match uiomove 0 LHD_SECTSIZE u s' with
        | .error stop => .error stop
        | .ok (u', s'') => lhdLoop left (sector+1) u' s''
    | .write =>
      match uiomove 0 LHD_SECTSIZE u s with
      | .error stop => .error stop
      | .ok (u', s') =>
        match lhdRequest sector .write s' with
        | (some e, s'') => .ok (some e, u', s'')
        | (none, s'') => lhdLoop left (sector+1) u' s''

def lhdIo (u : Uio) (s : Lhd) : LhdResult :=
  let sector := u.offset / LHD_SECTSIZE % 2^32
  let len := u.resid / LHD_SECTSIZE
  if u.offset % LHD_SECTSIZE ≠ 0 ∨ u.resid % LHD_SECTSIZE ≠ 0 then .ok (some .einval, u, s)
  else if s.blocks < (sector + len) % 2^32 then .ok (some .einval, u, s)
  else lhdLoop len sector u s

/-- `sfs_rwblock` with `left` more tries after this one. -/
def rwblock (left : ℕ) (u : Uio) (s : Lhd) : Except Stop (Option Errno × Lhd) :=
  match lhdIo u s with
  | .error stop => .error stop
  | .ok (e, u', s') =>
    if e = some .einval then .error .panic
    else if e = some .eio then
      match left with
      | 0 => .ok (e, s')
      | left+1 => rwblock left u' s'
    else .ok (e, s')

/-- The tries after the first. -/
def retries : ℕ := 10

def sfsRwblock (u : Uio) (s : Lhd) : Except Stop (Option Errno × Lhd) := rwblock retries u s

/-- A block of the volume and a buffer at `data`. -/
def sfsUio (data block : ℕ) (rw : Rw) : Uio := ⟨data, SFS_BLOCKSIZE, block * SFS_BLOCKSIZE, SFS_BLOCKSIZE, rw⟩

def sfsReadblock (block data : ℕ) (s : Lhd) : Except Stop (Option Errno × Lhd) := sfsRwblock (sfsUio data block .read) s

def sfsWriteblock (block data : ℕ) (s : Lhd) : Except Stop (Option Errno × Lhd) := sfsRwblock (sfsUio data block .write) s

/-- The block on the device holds what the buffer at `data` does. -/
def Holds (s : Lhd) (block data : ℕ) : Prop := ∀ j < SFS_BLOCKSIZE, s.sectors block j = s.mem (data+j)

/-- Success means that the data has got across. -/
structure BlockRight (block data : ℕ) (s : Lhd) : Prop where
  write : ∀ s', sfsWriteblock block data s = .ok (none, s') → Holds s' block data
  read : ∀ s', sfsReadblock block data s = .ok (none, s') → Holds s' block data

/-- The first request is carried out, or the sector is left with the contents of the buffer all the same. -/
def FirstHolds (data : ℕ) (s : Lhd) : Prop :=
  ∀ left, s.answers 0 = .media left → ∀ j < SFS_BLOCKSIZE, left j = s.mem (data+j)

variable {s s' : Lhd} {u : Uio} {block data left kbase offset : ℕ} {rw : Rw}

/-- The whole iovec at once. -/
theorem uiomove_sector (kbase offset : ℕ) (rw : Rw) (s : Lhd) :
    uiomove 0 LHD_SECTSIZE ⟨kbase, SFS_BLOCKSIZE, offset, SFS_BLOCKSIZE, rw⟩ s =
      .ok (⟨kbase + 512, 0, offset + 512, 0, rw⟩,
        moveBytes 0 512 ⟨kbase, SFS_BLOCKSIZE, offset, SFS_BLOCKSIZE, rw⟩ s) := by
  have hfirst : ¬(LHD_SECTSIZE = 0 ∨ SFS_BLOCKSIZE = 0) := by decide
  have hsize : min SFS_BLOCKSIZE LHD_SECTSIZE = 512 := by decide
  have hsome : ¬512 = 0 := by decide
  have hrest : LHD_SECTSIZE - 512 = 0 ∧ SFS_BLOCKSIZE - 512 = 0 := by decide
  rw [uiomove, if_neg hfirst]
  simp only [hsize, if_neg hsome, hrest.1]
  rw [uiomove, if_pos (.inl rfl)]
  simp only [Uio.advance, hrest.2]

/-- A block past the end of the device is a panic. -/
theorem rwblock_beyond (hblock : block < 2^32) (hbeyond : s.blocks ≤ block) :
    rwblock left (sfsUio data block rw) s = .error .panic := by
  have hsector : block * SFS_BLOCKSIZE / LHD_SECTSIZE % 2^32 = block := by
    unfold SFS_BLOCKSIZE LHD_SECTSIZE
    omega
  have haligned : ¬(block * SFS_BLOCKSIZE % LHD_SECTSIZE ≠ 0 ∨ SFS_BLOCKSIZE % LHD_SECTSIZE ≠ 0) := by
    unfold SFS_BLOCKSIZE LHD_SECTSIZE
    omega
  have hlen : SFS_BLOCKSIZE / LHD_SECTSIZE = 0+1 := rfl
  have hinval : ∃ u' s', lhdIo (sfsUio data block rw) s = .ok (some .einval, u', s') := by
    simp only [lhdIo, sfsUio, if_neg haligned, hsector, hlen]
    split_ifs
    · exact ⟨_, _, rfl⟩
    · cases rw with
      | read =>
        simp only [lhdLoop, lhdRequest, if_pos hbeyond]
        exact ⟨_, _, rfl⟩
      | write =>
        have hmoved : (moveBytes 0 512 ⟨data, SFS_BLOCKSIZE, block * SFS_BLOCKSIZE, SFS_BLOCKSIZE, .write⟩ s).blocks ≤ block :=
          hbeyond
        simp only [lhdLoop, uiomove_sector, lhdRequest, if_pos hmoved]
        exact ⟨_, _, rfl⟩
  obtain ⟨u', s', hio⟩ := hinval
  unfold rwblock
  simp only [hio, if_true]

/-- The one sector of a block that exists. -/
theorem lhdIo_sector (hblock : block < s.blocks) (hwords : s.blocks < 2^32) :
    lhdIo (sfsUio data block rw) s = lhdLoop 1 block (sfsUio data block rw) s := by
  have hsector : block * SFS_BLOCKSIZE / LHD_SECTSIZE % 2^32 = block := by
    unfold SFS_BLOCKSIZE LHD_SECTSIZE
    omega
  have haligned : ¬(block * SFS_BLOCKSIZE % LHD_SECTSIZE ≠ 0 ∨ SFS_BLOCKSIZE % LHD_SECTSIZE ≠ 0) := by
    unfold SFS_BLOCKSIZE LHD_SECTSIZE
    omega
  have hlen : SFS_BLOCKSIZE / LHD_SECTSIZE = 1 := rfl
  simp only [lhdIo, sfsUio, if_neg haligned, hsector, hlen]
  rw [if_neg (by omega)]

/-- A uio that has been used up asks for nothing. -/
theorem lhdIo_nothing (hblock : block < s.blocks) (hwords : s.blocks < 2^32) (kbase : ℕ) :
    lhdIo ⟨kbase, 0, block * SFS_BLOCKSIZE + 512, 0, rw⟩ s =
      .ok (none, ⟨kbase, 0, block * SFS_BLOCKSIZE + 512, 0, rw⟩, s) := by
  have hsector : (block * SFS_BLOCKSIZE + 512) / LHD_SECTSIZE % 2^32 = block + 1 := by
    unfold SFS_BLOCKSIZE LHD_SECTSIZE
    omega
  have haligned : ¬((block * SFS_BLOCKSIZE + 512) % LHD_SECTSIZE ≠ 0 ∨ 0 % LHD_SECTSIZE ≠ 0) := by
    unfold SFS_BLOCKSIZE LHD_SECTSIZE
    omega
  simp only [lhdIo, if_neg haligned, hsector, Nat.zero_div]
  rw [if_neg (by omega)]
  rfl

/-- What is on the card before the device is asked to write. -/
def loaded (data : ℕ) (s : Lhd) : Block := memmove s.buf 0 s.mem data 512

theorem loaded_byte {j : ℕ} (hj : j < SFS_BLOCKSIZE) : loaded data s j = s.mem (data+j) := by
  rw [loaded, memmove, if_pos ⟨Nat.zero_le j, by rwa [Nat.zero_add]⟩, Nat.sub_zero]

/-- A write reports success, whatever the first answer is. -/
theorem writeblock_first (data : ℕ) (hblock : block < s.blocks) (hwords : s.blocks < 2^32) :
    ∃ s', sfsWriteblock block data s = .ok (none, s') ∧ s'.mem = s.mem ∧ s'.sectors = update s.sectors block
      (match s.answers 0 with
        | .ok => loaded data s
        | .media left => left) := by
  unfold sfsWriteblock sfsRwblock retries rwblock
  rw [lhdIo_sector hblock hwords]
  have hmoved : ¬(moveBytes 0 512 ⟨data, SFS_BLOCKSIZE, block * SFS_BLOCKSIZE, SFS_BLOCKSIZE, .write⟩ s).blocks ≤ block :=
    Nat.not_le.mpr hblock
  cases hanswer : s.answers 0 with
  | ok =>
    have hgot : (moveBytes 0 512 ⟨data, SFS_BLOCKSIZE, block * SFS_BLOCKSIZE, SFS_BLOCKSIZE, .write⟩ s).answers 0 = .ok :=
      hanswer
    simp only [lhdLoop, sfsUio, uiomove_sector, lhdRequest, if_neg hmoved, hgot, reduceCtorEq, if_false]
    exact ⟨_, rfl, rfl, rfl⟩
  | media b =>
    have hgot : (moveBytes 0 512 ⟨data, SFS_BLOCKSIZE, block * SFS_BLOCKSIZE, SFS_BLOCKSIZE, .write⟩ s).answers 0 =
        .media b := hanswer
    simp only [lhdLoop, sfsUio, uiomove_sector, lhdRequest, if_neg hmoved, hgot, reduceCtorEq, if_true, if_false,
      Option.some.injEq]
    -- the second try has nothing left to write
    unfold rwblock
    rw [lhdIo_nothing (s := { moveBytes 0 512 ⟨data, SFS_BLOCKSIZE, block * SFS_BLOCKSIZE, SFS_BLOCKSIZE, .write⟩ s with
      sectors := _, answers := _ }) hblock hwords]
    simp only [reduceCtorEq, if_false]
    exact ⟨_, rfl, rfl, rfl⟩

/-- One try of a read: the sector is in the buffer, or the uio is as it was. -/
theorem readTry (data : ℕ) (hblock : block < s.blocks) (hwords : s.blocks < 2^32) :
    (∃ u s', lhdIo (sfsUio data block .read) s = .ok (none, u, s') ∧ Holds s' block data) ∨
    lhdIo (sfsUio data block .read) s =
      .ok (some .eio, sfsUio data block .read, { s with answers := fun i => s.answers (i+1) }) := by
  rw [lhdIo_sector hblock hwords]
  cases hanswer : s.answers 0 with
  | ok =>
    simp only [lhdLoop, sfsUio, lhdRequest, if_neg (Nat.not_le.mpr hblock), hanswer, uiomove_sector]
    refine .inl ⟨_, _, rfl, ?_⟩
    intro j hj
    show s.sectors block j = memmove s.mem data (s.sectors block) 0 512 (data+j)
    unfold SFS_BLOCKSIZE at hj
    rw [memmove, if_pos (by omega), Nat.zero_add, Nat.add_sub_cancel_left]
  | media b =>
    simp only [lhdLoop, sfsUio, lhdRequest, if_neg (Nat.not_le.mpr hblock), hanswer]
    exact .inr trivial

/-- However often it is tried, a read that reports success has got the block. -/
theorem rwblock_reads (hblock : block < s.blocks) (hwords : s.blocks < 2^32)
    (h : rwblock left (sfsUio data block .read) s = .ok (none, s')) : Holds s' block data := by
  induction left generalizing s with
  | zero =>
    unfold rwblock at h
    obtain ⟨u, s₁, hio, hholds⟩ | hio := readTry data hblock hwords
    · simp only [hio, reduceCtorEq, if_false, Except.ok.injEq, Prod.mk.injEq, true_and] at h
      rwa [← h]
    · simp [hio] at h
  | succ left ih =>
    unfold rwblock at h
    obtain ⟨u, s₁, hio, hholds⟩ | hio := readTry data hblock hwords
    · simp only [hio, reduceCtorEq, if_false, Except.ok.injEq, Prod.mk.injEq, true_and] at h
      rwa [← h]
    · simp only [hio, reduceCtorEq, if_false, if_true, Option.some.injEq] at h
      exact ih (s := { s with answers := fun i => s.answers (i+1) }) hblock hwords h

/-- With a device whose first answer is good, writing a block is what it is in the model without errors. -/
theorem writeblock_sound (hblock : block < s.blocks) (hwords : s.blocks < 2^32) (hgood : s.answers 0 = .ok)
    (w : Sfs.World) (hdisk : w.disk = s.sectors) (hblocks : w.dBlocks = s.blocks) :
    ∃ s', sfsWriteblock block data s = .ok (none, s') ∧
      Sfs.sfsWriteblock block (loaded data s) w = .ok { w with disk := s'.sectors } := by
  obtain ⟨s', hrun, -, hsectors⟩ := writeblock_first data hblock hwords
  refine ⟨s', hrun, ?_⟩
  rw [hgood] at hsectors
  rw [hsectors, ← hdisk]
  exact if_neg (by omega)

/-- The blocks are right after every success iff the first request of a write cannot fail and change them. -/
theorem block_right_iff (block data : ℕ) (s : Lhd) (hblock : block < 2^32) (hwords : s.blocks < 2^32) :
    BlockRight block data s ↔ s.blocks ≤ block ∨ FirstHolds data s := by
  by_cases hbeyond : s.blocks ≤ block
  · refine ⟨fun _ => .inl hbeyond, fun _ => ⟨fun s' h => ?_, fun s' h => ?_⟩⟩
    · rw [sfsWriteblock, sfsRwblock, rwblock_beyond hblock hbeyond] at h
      cases h
    · rw [sfsReadblock, sfsRwblock, rwblock_beyond hblock hbeyond] at h
      cases h
  · have hlt : block < s.blocks := Nat.not_le.mp hbeyond
    obtain ⟨s', hrun, hmem, hsectors⟩ := writeblock_first data hlt hwords
    constructor
    · intro hright
      refine .inr fun left hleft j hj => ?_
      have hbyte := hright.write s' hrun j hj
      rw [hsectors, hmem, update_self, hleft] at hbyte
      exact hbyte
    · rintro (hle | hfirst)
      · exact absurd hle hbeyond
      · refine ⟨fun s'' h => ?_, fun s'' h => rwblock_reads hlt hwords h⟩
        rw [hrun] at h
        cases h
        intro j hj
        rw [hsectors, hmem, update_self]
        cases hanswer : s.answers 0 with
        | ok => exact loaded_byte hj
        | media left => exact hfirst left hanswer j hj

/-- A device of one sector, with zeros, and a buffer of sevens. -/
def device (answers : ℕ → Answer) : Lhd := ⟨fun _ => Sfs.zeros, 1, Sfs.zeros, answers, fun _ => 7⟩

/-- Without errors the block is written and read. -/
theorem device_right : BlockRight 0 4096 (device fun _ => .ok) := by
  refine (block_right_iff 0 4096 (device fun _ => .ok) (by decide) (by decide)).mpr (.inr ?_)
  intro left hleft
  cases hleft

/-- One error, and the block is reported as written though the zeros are still there. -/
theorem device_lies : ∃ s', sfsWriteblock 0 4096 (device fun i => if i = 0 then .media Sfs.zeros else .ok) = .ok (none, s') ∧
    s'.sectors 0 0 = 0 ∧ s'.mem 4096 = 7 ∧
    ¬BlockRight 0 4096 (device fun i => if i = 0 then .media Sfs.zeros else .ok) := by
  have hdisk : (0 : ℕ) < (device fun i => if i = 0 then .media Sfs.zeros else .ok).blocks := by decide
  obtain ⟨s', hrun, hmem, hsectors⟩ := writeblock_first 4096 hdisk (by decide)
  have hzero : s'.sectors 0 0 = 0 := by
    rw [hsectors, update_self]
    rfl
  have hseven : s'.mem 4096 = 7 := by
    rw [hmem]
    rfl
  refine ⟨s', hrun, hzero, hseven, ?_⟩
  intro hright
  have hbyte := hright.write s' hrun 0 (by decide)
  rw [hzero, Nat.add_zero, hseven] at hbyte
  exact absurd hbyte (by decide)

end OS161.LhdRetries
