import OS161.SfsckRun

/-!
# The program sfsck

The program loads the superblock and checks it, goes through the two passes,
and at the end puts the link counts of files right. Its exit status says how
bad the worst thing is that it has found.
-/

set_option autoImplicit false

namespace OS161.SfsckMain

open Function OS161.Aborts OS161.CopyInOut OS161.Sfsck OS161.SfsckInodes OS161.SfsckDirectories OS161.SfsckPass1
open OS161.SfsckFreemap OS161.SfsckPass2 OS161.SfsckRun
open OS161.Sfs (Block)

def SFS_MAGIC : ℕ := 0xabadf001
def SFS_VOLNAME_SIZE : ℕ := 32

/-- The bytes of the section that is reserved. -/
def reservedSize : ℕ := 472

def EXIT_CLEAN : ℕ := 0

/-- A `struct sfs_superblock`. -/
structure Superblock where
  magic : ℕ
  nblocks : ℕ
  volname : ℕ → UInt8
  reserved : ℕ → UInt8

/-- The superblock that a block has. -/
def Superblock.ofBlock (b : Block) : Superblock where
  magic := word b
  nblocks := word fun i => b (4+i)
  volname i := b (8+i)
  reserved i := b (8 + SFS_VOLNAME_SIZE + i)

/-- The block for a superblock. -/
def Superblock.toBlock (sb : Superblock) : Block := fun i =>
  if i < 4 then bytes sb.magic i
  else if i < 8 then bytes sb.nblocks (i-4)
  else if i < 8 + SFS_VOLNAME_SIZE then sb.volname (i-8)
  else sb.reserved (i - (8 + SFS_VOLNAME_SIZE))

def sbLoad : Check Superblock := do
  let b ← diskread SFS_SUPER_BLOCK
  let sb := Superblock.ofBlock b
  require (sb.magic = SFS_MAGIC) .notSfs
  require (0 < sb.nblocks) .assertion
  require (0 < sbFreemapblocks sb.nblocks) .assertion
  modify fun w => { w with nblocks := sb.nblocks }
  pure sb

/-- What `checknullstring` does to the name of the volume. -/
def checkVolname (sb : Superblock) : Check (Bool × Superblock) :=
  if (List.range SFS_VOLNAME_SIZE).any (fun i => sb.volname i == 0) = true then pure (false, sb)
  else do
    warnx .volnameNotTerminated
    setbadness EXIT_RECOV
    pure (true, { sb with volname := update sb.volname (SFS_VOLNAME_SIZE - 1) 0 })

/-- What `checkbadstring` does to it. -/
def checkVolchars (sb : Superblock) : Check (Bool × Superblock) :=
  let name := cstring SFS_VOLNAME_SIZE sb.volname
  if name.any badCharacter = true then do
    warnx .volnameInvalid
    setbadness EXIT_RECOV
    pure (true, { sb with volname := fun i =>
      if i < name.length ∧ badCharacter (sb.volname i) = true then 95 else sb.volname i })
  else pure (false, sb)

/-- What `checkzeroed` does to the section that is reserved. -/
def checkReserved (sb : Superblock) : Check (Bool × Superblock) :=
  if (List.range reservedSize).any (fun i => sb.reserved i != 0) = true then do
    warnx .reservedNotZeroed
    setbadness EXIT_RECOV
    pure (true, { sb with reserved := fun _ => 0 })
  else pure (false, sb)

def sbCheck (sb : Superblock) : Check Unit := do
  let p ← checkVolname sb
  let p' ← checkVolchars p.2
  let p'' ← checkReserved p'.2
  onlyIf ((p.1 || p'.1 || p''.1) = true) (diskwrite p''.2.toBlock SFS_SUPER_BLOCK)

/-- The body of the loop of `inode_adjust_filelinks`. -/
def adjustLinks (inf : Inodeinfo) : Check Unit :=
  if inf.type = SFS_TYPE_DIR then pure ()
  else do
    require (inf.type = SFS_TYPE_FILE) .assertion
    require (0 < inf.linkcount) .assertion
    let sfi ← sfsReadinode inf.ino
    require (sfi.type = SFS_TYPE_FILE) .assertion
    onlyIf (sfi.linkcount ≠ inf.linkcount) (do
      warnx (.fileLinkCount inf.ino sfi.linkcount inf.linkcount)
      setbadness EXIT_RECOV
      sfsWriteinode inf.ino (Dinode.setLinkcount inf.linkcount sfi))

def inodeAdjustFilelinks : Check Unit := do
  let w ← get
  w.inodes.foldlM (fun _ inf => adjustLinks inf) ()

/-- The exit status, if the program comes to its end. -/
def main (q : Qsort) : Check ℕ := do
  let sb ← sbLoad
  sbCheck sb
  phase1
  phase2 q
  inodeAdjustFilelinks
  let w ← get
  require (w.findings.badness = EXIT_UNRECOV ∨ w.findings.badness = EXIT_RECOV ∨ w.findings.badness = EXIT_CLEAN) .assertion
  pure w.findings.badness

/-- The program when it starts on a device. -/
def started (dBlocks : ℕ) (disk : ℕ → Block) (memory : ℕ → Bool) : World :=
  { blank 0 with dBlocks := dBlocks, disk := disk, memory := memory }

/-- A superblock with which nothing is wrong. -/
structure Superblock.Right (sb : Superblock) : Prop where
  terminated : ∃ i < SFS_VOLNAME_SIZE, sb.volname i = 0
  characters : ∀ c ∈ cstring SFS_VOLNAME_SIZE sb.volname, badCharacter c = false
  reserved : ∀ i < reservedSize, sb.reserved i = 0

variable {w : World} {r : Fatal → Prop} {sb : Superblock}

/-- Nothing is done about a superblock with which nothing is wrong. -/
theorem sbCheck_right (h : sb.Right) : Ends r (sbCheck sb) w (fun _ w' => w' = w) := by
  have hname : checkVolname sb = pure (false, sb) := by
    obtain ⟨i, hi, hzero⟩ := h.terminated
    apply if_pos
    rw [List.any_eq_true]
    exact ⟨i, List.mem_range.mpr hi, beq_iff_eq.mpr hzero⟩
  have hchars : checkVolchars sb = pure (false, sb) := by
    apply if_neg
    rw [List.any_eq_true]
    rintro ⟨c, hc, hbad⟩
    rw [h.characters c hc] at hbad
    cases hbad
  have hreserved : checkReserved sb = pure (false, sb) := by
    apply if_neg
    rw [List.any_eq_true]
    rintro ⟨i, hi, hne⟩
    rw [h.reserved i (List.mem_range.mp hi)] at hne
    cases hne
  rw [sbCheck, hname, ends_bind, ends_pure, hchars, ends_bind, ends_pure, hreserved, ends_bind, ends_pure, ends_onlyIf]
  exact ⟨fun hchanged => absurd hchanged Bool.false_ne_true, fun _ => rfl⟩

/-- A superblock is read as it was written. -/
structure Superblock.Same (sb sb' : Superblock) : Prop where
  magic : sb.magic = sb'.magic
  nblocks : sb.nblocks = sb'.nblocks
  volname : ∀ i < SFS_VOLNAME_SIZE, sb.volname i = sb'.volname i
  reserved : ∀ i, sb.reserved i = sb'.reserved i

theorem superblock_toBlock (sb : Superblock) (hmagic : sb.magic < 2^32) (hnblocks : sb.nblocks < 2^32) :
    (Superblock.ofBlock sb.toBlock).Same sb where
  magic := by
    have hat : ∀ i < 4, sb.toBlock i = bytes sb.magic i := fun i hi => if_pos hi
    calc word sb.toBlock = word (bytes sb.magic) := by
          simp only [word, hat 0 (by omega), hat 1 (by omega), hat 2 (by omega), hat 3 (by omega)]
      _ = sb.magic := ArgumentScan.word_bytes hmagic
  nblocks := by
    have hat : ∀ i < 4, sb.toBlock (4+i) = bytes sb.nblocks i := by
      intro i hi
      rw [Superblock.toBlock, if_neg (by omega), if_pos (by omega), Nat.add_sub_cancel_left]
    calc word (fun i => sb.toBlock (4+i)) = word (bytes sb.nblocks) := by
          simp only [word, hat 0 (by omega), hat 1 (by omega), hat 2 (by omega), hat 3 (by omega)]
      _ = sb.nblocks := ArgumentScan.word_bytes hnblocks
  volname i hi := by
    show sb.toBlock (8+i) = _
    rw [Superblock.toBlock, if_neg (by omega), if_neg (by omega), if_pos (by omega), Nat.add_sub_cancel_left]
  reserved i := by
    show sb.toBlock (8 + SFS_VOLNAME_SIZE + i) = _
    rw [Superblock.toBlock, if_neg (by omega), if_neg (by omega), if_neg (by omega), Nat.add_sub_cancel_left]

theorem Superblock.Same.right {sb' : Superblock} (h : sb.Same sb') (hright : sb'.Right) : sb.Right where
  terminated := by
    obtain ⟨i, hi, hzero⟩ := hright.terminated
    exact ⟨i, hi, (h.volname i hi).trans hzero⟩
  characters := by
    rw [cstring_congr h.volname]
    exact hright.characters
  reserved i hi := (h.reserved i).trans (hright.reserved i hi)

end OS161.SfsckMain
