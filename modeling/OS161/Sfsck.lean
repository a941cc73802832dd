import OS161.Aborts
import OS161.Sfs

/-!
# What sfsck works on

The checker reads and writes whole blocks of the device, keeps its own map of
the blocks that it has found in use and of those that it means to free, and a
table of the inodes that it has found. It reports what it finds on the way; a
fatal error ends the run.
-/

set_option autoImplicit false

namespace OS161.Sfsck

open Function OS161.Aborts OS161.CopyInOut
open OS161.Sfs (Block zeros SFS_BLOCKSIZE SFS_NDIRECT SFS_NINDIRECT SFS_DBPERIDB getNumber)

def SFS_SUPER_BLOCK : ℕ := 0
def SFS_FREEMAP_START : ℕ := 2
def SFS_NOINO : ℕ := 0
def SFS_ROOTDIR_INO : ℕ := 1
def SFS_TYPE_FILE : ℕ := 1
def SFS_TYPE_DIR : ℕ := 2

def EXIT_RECOV : ℕ := 1
def EXIT_UNRECOV : ℕ := 2

/-- The macro, on unsigned numbers of 32 bits. -/
def SFS_ROUNDUP (a b : ℕ) : ℕ := (a + b - 1) % 2^32 / b * b

theorem mod_word_lt (n : ℕ) : n % 2^32 < 2^32 := Nat.mod_lt n (by decide)

theorem zero_lt_word : 0 < 2^32 := by decide

theorem one_lt_half : 1 < 2^16 := by decide

theorem typeDir_lt : SFS_TYPE_DIR < 2^16 := by decide

theorem mod_half_lt (n : ℕ) : n % 2^16 < 2^16 := Nat.mod_lt n (by decide)

/-- A `struct sfs_dinode`. -/
structure Dinode where
  size : ℕ
  type : ℕ
  linkcount : ℕ
  direct : ℕ → ℕ
  indirect : ℕ
  waste : ℕ → UInt8
  size_lt : size < 2^32
  type_lt : type < 2^16
  linkcount_lt : linkcount < 2^16
  direct_lt : ∀ i, direct i < 2^32
  indirect_lt : indirect < 2^32

/-- How a block is used. -/
inductive Blockusage where
  | superblock | freemapblock | inode | iblock | dirdata | data | pastend
  deriving DecidableEq

/-- What is reported, with the numbers that are printed. -/
inductive Report where
  | indirectOutside (ino indirection curfileblock ientry : ℕ)
  | directOutside (ino curfileblock datablock : ℕ)
  | pastEof (ino pasteofcount : ℕ)
  | alreadyInUse (block : ℕ) (how : Blockusage) (howdesc : ℕ)
  | wasteNotZeroed (ino : ℕ)
  | rootIsFile
  | rootInvalid (type : ℕ)
  | illegalSize (ino size : ℕ)
  | nameButNoFile (index : ℕ)
  | outOfRange (index : ℕ)
  | fileButNoName (index : ℕ)
  | notTerminated (index : ℕ)
  | invalidCharacters (index : ℕ)
  | invalidType (ino type : ℕ)
  | sparseDirectory
  | missingBlock
  | duplicateEntries (ino : ℕ)
  | duplicateNames (ino : ℕ)
  | incorrectDot (ino : ℕ)
  | incorrectDotdot (ino : ℕ)
  | dotAdded (ino : ℕ)
  | dotNotFixed (ino : ℕ)
  | dotdotAdded (ino : ℕ)
  | dotdotNotFixed (ino : ℕ)
  | crosslink (ino : ℕ)
  | linkCount (ino linkcount : ℕ)
  | shownInFreemap (block : ℕ) (allocated : Bool)
  | shownFree (count : ℕ)
  | shownUsed (count : ℕ)
  | volnameNotTerminated
  | volnameInvalid
  | reservedNotZeroed
  | fileLinkCount (ino linkcount should : ℕ)

/-- Why a run ends early. -/
inductive Fatal where
  | io
  | memory
  | assertion
  | wrongType
  | notFound
  | overrun
  | notSfs
  | unfinished
  deriving DecidableEq

theorem Fatal.io_ne : Fatal.io ≠ .unfinished := nofun

/-- The blocks in use and those to be freed, of which none is both. -/
structure Freemap where
  freemapdata : ℕ → Bool
  tofreedata : ℕ → Bool
  apart : ∀ b, freemapdata b = true → tofreedata b = false

/-- A `struct inodeinfo`. -/
structure Inodeinfo where
  ino : ℕ
  linkcount : ℕ
  visited : Bool
  type : ℕ
  deriving DecidableEq

/-- What has been found out so far about the blocks of the volume. -/
structure Findings where
  freemap : Freemap
  blocksinuse : ℕ
  badness : ℕ
  reports : List Report

/-- What has been done: the blocks of an inode or the entries of a directory were checked, an entry of a
directory was followed to an inode, a directory was processed by pass 2. -/
inductive Event where
  | blocks (ino : ℕ)
  | entries (ino : ℕ)
  | link (ino subino : ℕ)
  | processed (ino : ℕ)
  deriving DecidableEq

-- `memory` has the answers of `malloc` to come; `trail` is a record that no function reads
/-- The device, of `dBlocks` blocks, and the variables of the program. -/
structure World where
  nblocks : ℕ
  dBlocks : ℕ
  disk : ℕ → Block
  findings : Findings
  inodes : List Inodeinfo
  maxinodes : ℕ
  inodesSorted : Bool
  uniquecounter : ℕ
  memory : ℕ → Bool
  trail : List Event

abbrev Check := Action Fatal World

def setbadness (code : ℕ) : Check Unit :=
  modify fun w => { w with findings := { w.findings with badness := max w.findings.badness code } }

def warnx (r : Report) : Check Unit :=
  modify fun w => { w with findings := { w.findings with reports := w.findings.reports ++ [r] } }

def note (e : Event) : Check Unit := modify fun w => { w with trail := w.trail ++ [e] }

/-- The next allocation. -/
def domalloc : Check Unit := do
  let w ← get
  require (w.memory 0 = true) .memory
  modify fun w => { w with memory := fun i => w.memory (i+1) }

/-- The block of the device at the offset that is computed for a block. -/
def sector (block : ℕ) : ℕ := block * SFS_BLOCKSIZE % 2^32 / SFS_BLOCKSIZE

def diskread (block : ℕ) : Check Block := do
  let w ← get
  require (sector block < w.dBlocks) .io
  pure (w.disk (sector block))

def diskwrite (data : Block) (block : ℕ) : Check Unit := do
  let w ← get
  require (sector block < w.dBlocks) .io
  modify fun w => { w with disk := update w.disk (sector block) data }

theorem word_lt (b : Buffer) : word b < 2^32 := by
  have h (i : ℕ) : (b i).toNat < 256 := (b i).toNat_lt
  have h0 := h 0
  have h1 := h 1
  have h2 := h 2
  have h3 := h 3
  unfold word
  omega

/-- A number of 16 bits. -/
def half (b : Buffer) : ℕ := 2^8 * (b 0).toNat + (b 1).toNat

theorem half_lt (b : Buffer) : half b < 2^16 := by
  have h0 := (b 0).toNat_lt
  have h1 := (b 1).toNat_lt
  unfold half
  omega

/-- A number of 16 bits as bytes. -/
def halfBytes (n : ℕ) : Buffer := fun i => UInt8.ofNat (n / 2^(8 - 8*i))

/-- The inode that a block has. -/
def Dinode.ofBlock (b : Block) : Dinode where
  size := word b
  type := half fun i => b (4+i)
  linkcount := half fun i => b (6+i)
  direct c := word fun i => b (8 + 4*c + i)
  indirect := word fun i => b (8 + 4*SFS_NDIRECT + i)
  waste i := b (12 + 4*SFS_NDIRECT + i)
  size_lt := word_lt _
  type_lt := half_lt _
  linkcount_lt := half_lt _
  direct_lt _ := word_lt _
  indirect_lt := word_lt _

/-- The block for an inode. -/
def Dinode.toBlock (d : Dinode) : Block := fun i =>
  if i < 4 then bytes d.size i
  else if i < 6 then halfBytes d.type (i-4)
  else if i < 8 then halfBytes d.linkcount (i-6)
  else if i < 8 + 4*SFS_NDIRECT then bytes (d.direct ((i-8) / 4)) ((i-8) % 4)
  else if i < 12 + 4*SFS_NDIRECT then bytes d.indirect (i - (8 + 4*SFS_NDIRECT))
  else d.waste (i - (12 + 4*SFS_NDIRECT))

/-- Other block pointers, as numbers of 32 bits. -/
def Dinode.setPointers (direct : ℕ → ℕ) (indirect : ℕ) (d : Dinode) : Dinode := { d with
  direct c := direct c % 2^32
  indirect := indirect % 2^32
  direct_lt _ := mod_word_lt _
  indirect_lt := mod_word_lt _ }

def Dinode.setSize (size : ℕ) (d : Dinode) : Dinode := { d with
  size := size % 2^32
  size_lt := mod_word_lt _ }

def sfsReadinode (ino : ℕ) : Check Dinode := do
  let b ← diskread ino
  pure (.ofBlock b)

def sfsWriteinode (ino : ℕ) (sfi : Dinode) : Check Unit := diskwrite sfi.toBlock ino

/-- The block for the entries of an indirect block. -/
def ofEntries (entries : ℕ → ℕ) : Block := fun i => bytes (entries (i/4)) (i%4)

theorem getNumber_entries {entries : ℕ → ℕ} {k : ℕ} (h : entries k < 2^32) :
    getNumber (ofEntries entries) k = entries k := by
  have hat : ∀ i < 4, ofEntries entries (4*k+i) = bytes (entries k) i := by
    intro i hi
    rw [ofEntries, show (4*k+i) / 4 = k by omega, show (4*k+i) % 4 = i by omega]
  calc getNumber (ofEntries entries) k = word (bytes (entries k)) := by
        simp only [getNumber, word, hat 0 (by omega), hat 1 (by omega), hat 2 (by omega), hat 3 (by omega)]
    _ = entries k := ArgumentScan.word_bytes h

def sfsReadindirect (blocknum : ℕ) : Check (ℕ → ℕ) := do
  let b ← diskread blocknum
  pure (getNumber b)

def sfsWriteindirect (blocknum : ℕ) (entries : ℕ → ℕ) : Check Unit := diskwrite (ofEntries entries) blocknum

def Freemap.blockinuse (block : ℕ) (m : Freemap) : Freemap where
  freemapdata := update m.freemapdata block true
  tofreedata := update m.tofreedata block false
  apart b hb := by
    by_cases hblock : b = block
    · rw [hblock, update_self]
    · rw [update_of_ne hblock] at hb ⊢
      exact m.apart b hb

def freemapBlockinuse (block : ℕ) (how : Blockusage) (howdesc : ℕ) : Check Unit := do
  let w ← get
  onlyIf (w.findings.freemap.freemapdata block = true) (do
    warnx (.alreadyInUse block how howdesc)
    setbadness EXIT_UNRECOV)
  modify fun w => { w with findings := { w.findings with
    freemap := w.findings.freemap.blockinuse block
    blocksinuse := if how = .pastend then w.findings.blocksinuse else w.findings.blocksinuse + 1 } }

/-- A block that is in use stays so. -/
def Freemap.blockfree (block : ℕ) (m : Freemap) : Freemap :=
  if m.tofreedata block = true then m
  else if h : m.freemapdata block = true then m
  else { m with
    tofreedata := update m.tofreedata block true
    apart b hb := by
      have hblock : b ≠ block := by
        intro hblock
        exact h (hblock ▸ hb)
      rw [update_of_ne hblock]
      exact m.apart b hb }

def freemapBlockfree (block : ℕ) : Check Unit :=
  modify fun w => { w with findings := { w.findings with freemap := w.findings.freemap.blockfree block } }

def World.inUse (w : World) (b : ℕ) : Prop := w.findings.freemap.freemapdata b = true

def World.toFree (w : World) (b : ℕ) : Prop := w.findings.freemap.tofreedata b = true

/-- A volume of `n` blocks with nothing on it, before anything has been checked. -/
def blank (n : ℕ) : World where
  nblocks := n
  dBlocks := n
  disk _ := zeros
  findings := ⟨⟨fun _ => false, fun _ => false, fun _ _ => rfl⟩, 0, 0, []⟩
  inodes := []
  maxinodes := 0
  inodesSorted := false
  uniquecounter := 0
  memory _ := true
  trail := []

/-- Some block has been reported as used twice. -/
def World.crosslinked (w : World) : Prop :=
  ∃ block how howdesc, Report.alreadyInUse block how howdesc ∈ w.findings.reports

/-- The blocks `used` are put to use and the blocks `dropped` are given up; where no block is reported as
used twice, none of the former was in use before. -/
structure Uses (used dropped : ℕ → Prop) (w w' : World) : Prop where
  inuse : ∀ b, w'.inUse b ↔ w.inUse b ∨ used b
  tofree : ∀ b, w'.toFree b ↔ (w.toFree b ∨ dropped b) ∧ ¬w'.inUse b
  fresh : ¬w'.crosslinked → ¬w.crosslinked ∧ ∀ b, used b → ¬w.inUse b
  rest : w' = { w with disk := w'.disk, findings := w'.findings }

variable {w w' w'' : World} {used used' dropped dropped' : ℕ → Prop} {b block : ℕ} {r : Fatal → Prop}

theorem ends_diskread {Q : Block → World → Prop} (hio : r .io) (h : Q (w.disk (sector block)) w) :
    Ends r (diskread block) w Q := by
  rw [diskread, ends_bind, ends_get, ends_bind, ends_require]
  exact ⟨fun _ => ends_pure.mpr h, fun _ => hio⟩

theorem ends_diskwrite {Q : Unit → World → Prop} {data : Block} (hio : r .io)
    (h : Q () { w with disk := update w.disk (sector block) data }) : Ends r (diskwrite data block) w Q := by
  rw [diskwrite, ends_bind, ends_get, ends_bind, ends_require]
  exact ⟨fun _ => ends_modify.mpr h, fun _ => hio⟩

def nothing : ℕ → Prop := fun _ => False

theorem apart (w : World) (h : w.inUse b) : ¬w.toFree b := by
  intro hfree
  exact Bool.noConfusion ((w.findings.freemap.apart b h).symm.trans hfree)

theorem uses_nothing (hmap : w'.findings.freemap = w.findings.freemap) (hlinks : w.crosslinked → w'.crosslinked)
    (hrest : w' = { w with disk := w'.disk, findings := w'.findings }) : Uses nothing nothing w w' where
  inuse b := by simp [World.inUse, hmap, nothing]
  tofree b := by
    have hsame : w'.inUse b ↔ w.inUse b := by simp [World.inUse, hmap]
    rw [hsame, show w'.toFree b ↔ w.toFree b by simp [World.toFree, hmap]]
    constructor
    · intro h
      exact ⟨.inl h, fun hu => apart w hu h⟩
    · rintro ⟨h | h, -⟩
      · exact h
      · exact h.elim
  fresh h := ⟨fun hw => h (hlinks hw), fun _ => False.elim⟩
  rest := hrest

theorem Uses.trans (h : Uses used dropped w w') (h' : Uses used' dropped' w' w'') :
    Uses (fun b => used b ∨ used' b) (fun b => dropped b ∨ dropped' b) w w'' where
  inuse b := by rw [h'.inuse, h.inuse, or_assoc]
  tofree b := by
    have hkept : w'.inUse b → w''.inUse b := fun hb => (h'.inuse b).mpr (.inl hb)
    rw [h'.tofree, h.tofree]
    tauto
  fresh hlinks := by
    obtain ⟨hlinks', hnew'⟩ := h'.fresh hlinks
    obtain ⟨hlinks, hnew⟩ := h.fresh hlinks'
    refine ⟨hlinks, fun b hb => ?_⟩
    obtain hb | hb := hb
    · exact hnew b hb
    · intro hw
      exact hnew' b hb ((h.inuse b).mpr (.inl hw))
  rest := by
    rw [h'.rest, h.rest]

theorem Uses.congr (h : Uses used dropped w w') (hused : ∀ b, used b ↔ used' b)
    (hdropped : ∀ b, dropped b ↔ dropped' b) : Uses used' dropped' w w' := by
  obtain rfl : used = used' := funext fun b => propext (hused b)
  obtain rfl : dropped = dropped' := funext fun b => propext (hdropped b)
  exact h

theorem uses_block (hmap : w'.findings.freemap = w.findings.freemap.blockinuse block)
    (hlinks : w.crosslinked ∨ w.inUse block → w'.crosslinked)
    (hrest : w' = { w with disk := w'.disk, findings := w'.findings }) : Uses (· = block) nothing w w' where
  inuse b := by
    by_cases hb : b = block
    · simp [World.inUse, hmap, Freemap.blockinuse, hb]
    · simp [World.inUse, hmap, Freemap.blockinuse, hb]
  tofree b := by
    by_cases hb : b = block
    · simp [World.inUse, World.toFree, hmap, Freemap.blockinuse, hb]
    · have happart : w.toFree b → ¬w.inUse b := fun hfree huse => apart w huse hfree
      have hfree : w'.toFree b ↔ w.toFree b := by simp [World.toFree, hmap, Freemap.blockinuse, hb]
      have huse : w'.inUse b ↔ w.inUse b := by simp [World.inUse, hmap, Freemap.blockinuse, hb]
      rw [hfree, huse, nothing, or_false, iff_self_and]
      exact happart
  fresh h := by
    refine ⟨fun hw => h (hlinks (.inl hw)), ?_⟩
    rintro b rfl huse
    exact h (hlinks (.inr huse))
  rest := hrest

theorem uses_freed (hmap : w'.findings.freemap = w.findings.freemap.blockfree block)
    (hlinks : w.crosslinked → w'.crosslinked)
    (hrest : w' = { w with disk := w'.disk, findings := w'.findings }) : Uses nothing (· = block) w w' := by
  have huse : ∀ b, w'.inUse b ↔ w.inUse b := by
    intro b
    simp only [World.inUse, hmap, Freemap.blockfree]
    split_ifs <;> rfl
  have hfree : ∀ b, w'.toFree b ↔ w.toFree b ∨ b = block ∧ ¬w.inUse b := by
    intro b
    simp only [World.toFree, World.inUse, hmap, Freemap.blockfree]
    split_ifs with hold hin
    · refine ⟨.inl, ?_⟩
      rintro (h | ⟨rfl, -⟩)
      · exact h
      · exact hold
    · refine ⟨.inl, ?_⟩
      rintro (h | ⟨rfl, hno⟩)
      · exact h
      · exact absurd hin hno
    · by_cases hb : b = block
      · simp [hb, hin]
      · simp [hb]
  refine ⟨fun b => by simp [huse, nothing], ?_, fun h => ⟨fun hw => h (hlinks hw), fun _ => False.elim⟩, hrest⟩
  intro b
  have happart : w.toFree b → ¬w.inUse b := fun hfree huse => apart w huse hfree
  rw [hfree, huse]
  tauto

/-- What is in use anyway is not given up. -/
theorem Uses.drop (h : Uses used dropped w w') (hdropped : ∀ b, dropped' b → dropped b)
    (hrest : ∀ b, dropped b → dropped' b ∨ used b) : Uses used dropped' w w' where
  inuse := h.inuse
  tofree b := by
    have huse := h.inuse b
    rw [h.tofree b]
    constructor
    · rintro ⟨hfree | hdrop, hno⟩
      · exact ⟨.inl hfree, hno⟩
      · obtain hdrop | hused := hrest b hdrop
        · exact ⟨.inr hdrop, hno⟩
        · exact absurd (huse.mpr (.inr hused)) hno
    · rintro ⟨hfree | hdrop, hno⟩
      · exact ⟨.inl hfree, hno⟩
      · exact ⟨.inr (hdropped b hdrop), hno⟩
  fresh := h.fresh
  rest := h.rest

theorem setbadness_uses (code : ℕ) :
    Ends r (setbadness code) w (fun _ w' => Uses nothing nothing w w' ∧ w'.disk = w.disk) :=
  ends_modify.mpr ⟨uses_nothing rfl id rfl, rfl⟩

theorem warnx_uses (t : Report) :
    Ends r (warnx t) w (fun _ w' => Uses nothing nothing w w' ∧ w'.disk = w.disk) := by
  refine ends_modify.mpr ⟨uses_nothing rfl ?_ rfl, rfl⟩
  rintro ⟨block, how, howdesc, h⟩
  exact ⟨block, how, howdesc, List.mem_append_left _ h⟩

theorem blockinuse_uses (block : ℕ) (how : Blockusage) (howdesc : ℕ) :
    Ends r (freemapBlockinuse block how howdesc) w
      (fun _ w' => Uses (· = block) nothing w w' ∧ w'.disk = w.disk) := by
  rw [freemapBlockinuse, ends_bind, ends_get, ends_bind, ends_onlyIf]
  constructor
  · intro huse
    rw [ends_bind, warnx, ends_modify, setbadness, ends_modify, ends_modify]
    refine ⟨uses_block rfl (fun _ => ?_) rfl, rfl⟩
    exact ⟨block, how, howdesc, List.mem_append_right _ List.mem_cons_self⟩
  · intro hno
    rw [ends_modify]
    refine ⟨uses_block rfl ?_ rfl, rfl⟩
    rintro (h | h)
    · exact h
    · exact absurd h hno

theorem blockfree_uses (block : ℕ) :
    Ends r (freemapBlockfree block) w (fun _ w' => Uses nothing (· = block) w w' ∧ w'.disk = w.disk) :=
  ends_modify.mpr ⟨uses_freed rfl id rfl, rfl⟩

/-- Neither the blocks in use nor the table nor the trail is changed. -/
structure Still (w w' : World) : Prop where
  inuse : ∀ b, w'.inUse b ↔ w.inUse b
  crosslinked : w.crosslinked → w'.crosslinked
  nblocks : w'.nblocks = w.nblocks
  inodes : w'.inodes = w.inodes
  sorted : w'.inodesSorted = w.inodesSorted
  trail : w'.trail = w.trail

/-- The disk is not changed either. -/
structure Quiet (w w' : World) : Prop extends Still w w' where
  disk : w'.disk = w.disk

theorem Still.refl (w : World) : Still w w := ⟨fun _ => Iff.rfl, id, rfl, rfl, rfl, rfl⟩

theorem Still.trans (h : Still w w') (h' : Still w' w'') : Still w w'' where
  inuse b := (h'.inuse b).trans (h.inuse b)
  crosslinked hw := h'.crosslinked (h.crosslinked hw)
  nblocks := h'.nblocks.trans h.nblocks
  inodes := h'.inodes.trans h.inodes
  sorted := h'.sorted.trans h.sorted
  trail := h'.trail.trans h.trail

theorem Quiet.refl (w : World) : Quiet w w := ⟨.refl w, rfl⟩

theorem Quiet.trans (h : Quiet w w') (h' : Quiet w' w'') : Quiet w w'' :=
  ⟨h.toStill.trans h'.toStill, h'.disk.trans h.disk⟩

theorem setbadness_quiet (code : ℕ) : Ends r (setbadness code) w (fun _ w' => Quiet w w') :=
  ends_modify.mpr ⟨⟨fun _ => Iff.rfl, id, rfl, rfl, rfl, rfl⟩, rfl⟩

theorem warnx_quiet (t : Report) : Ends r (warnx t) w (fun _ w' => Quiet w w') := by
  refine ends_modify.mpr ⟨⟨fun _ => Iff.rfl, ?_, rfl, rfl, rfl, rfl⟩, rfl⟩
  rintro ⟨block, how, howdesc, h⟩
  exact ⟨block, how, howdesc, List.mem_append_left _ h⟩

/-- Only the disk and what has been found out about its blocks change where blocks are put to use. -/
theorem Uses.same (h : Uses used dropped w w') :
    w'.inodes = w.inodes ∧ w'.trail = w.trail ∧ w'.nblocks = w.nblocks := by
  rw [h.rest]
  exact ⟨rfl, rfl, rfl⟩

/-- The inode on the disk. -/
def inodeOf (w : World) (ino : ℕ) : Dinode := .ofBlock (w.disk (sector ino))

/-- Two inodes have the same pointers. -/
structure SamePointers (d d' : Dinode) : Prop where
  direct : ∀ c < SFS_NDIRECT, d.direct c = d'.direct c
  indirect : d.indirect = d'.indirect

/-- Two inodes differ in nothing that leads to the blocks. -/
structure Alike (d d' : Dinode) : Prop where
  size : d.size = d'.size
  type : d.type = d'.type
  direct : ∀ c < SFS_NDIRECT, d.direct c = d'.direct c
  indirect : d.indirect = d'.indirect

theorem Alike.pointers {d d' : Dinode} (h : Alike d d') : SamePointers d d' := ⟨h.direct, h.indirect⟩

theorem SamePointers.refl (d : Dinode) : SamePointers d d := ⟨fun _ _ => rfl, rfl⟩

theorem SamePointers.trans {d d' d'' : Dinode} (h : SamePointers d d') (h' : SamePointers d' d'') : SamePointers d d'' :=
  ⟨fun c hc => (h.direct c hc).trans (h'.direct c hc), h.indirect.trans h'.indirect⟩

theorem Alike.refl (d : Dinode) : Alike d d := ⟨rfl, rfl, fun _ _ => rfl, rfl⟩

theorem Alike.trans {d d' d'' : Dinode} (h : Alike d d') (h' : Alike d' d'') : Alike d d'' :=
  ⟨h.size.trans h'.size, h.type.trans h'.type, fun c hc => (h.direct c hc).trans (h'.direct c hc),
    h.indirect.trans h'.indirect⟩

theorem half_bytes {n : ℕ} (h : n < 2^16) : half (halfBytes n) = n := by
  simp only [half, halfBytes, UInt8.toNat_ofNat']
  omega

/-- An inode is read as it was written. -/
theorem ofBlock_toBlock (d : Dinode) : Alike (.ofBlock d.toBlock) d where
  size := by
    have hat : ∀ i < 4, d.toBlock i = bytes d.size i := fun i hi => if_pos hi
    calc word d.toBlock = word (bytes d.size) := by
          simp only [word, hat 0 (by omega), hat 1 (by omega), hat 2 (by omega), hat 3 (by omega)]
      _ = d.size := ArgumentScan.word_bytes d.size_lt
  type := half_bytes d.type_lt
  direct c hc := by
    have hat : ∀ i < 4, d.toBlock (8 + 4*c + i) = bytes (d.direct c) i := by
      intro i hi
      rw [Dinode.toBlock, if_neg (by omega), if_neg (by omega), if_neg (by omega), if_pos (by omega),
        show (8 + 4*c + i - 8) / 4 = c by omega, show (8 + 4*c + i - 8) % 4 = i by omega]
    calc word (fun i => d.toBlock (8 + 4*c + i)) = word (bytes (d.direct c)) := by
          simp only [word, hat 0 (by omega), hat 1 (by omega), hat 2 (by omega), hat 3 (by omega)]
      _ = d.direct c := ArgumentScan.word_bytes (d.direct_lt c)
  indirect := ArgumentScan.word_bytes d.indirect_lt

/-- A volume on which every block has a place of its own; past that, the offset of a block wraps around. -/
def SmallVolume (w : World) : Prop := w.nblocks ≤ 2^23

theorem sector_small (h : b < 2^23) : sector b = b := by
  unfold sector SFS_BLOCKSIZE
  omega

end OS161.Sfsck
