import OS161.Sfsck

/-!
# The map of free blocks under sfsck

Before the first pass the program sets up its own map of the blocks in use, in
which the superblock, the map on the disk and what lies past the end of the
volume are marked. After the pass it puts the map on the disk right.
-/

set_option autoImplicit false

namespace OS161.SfsckFreemap

open Function OS161.Aborts OS161.Sfsck
open OS161.Sfs (Block SFS_BLOCKSIZE)

def SFS_BITSPERBLOCK : ℕ := 4096

/-- How many blocks the map has for a volume of this size. -/
def sbFreemapblocks (nblocks : ℕ) : ℕ := SFS_ROUNDUP nblocks SFS_BITSPERBLOCK / SFS_BITSPERBLOCK

/-- A map with nothing in use. -/
def Freemap.empty : Freemap := ⟨fun _ => false, fun _ => false, fun _ _ => rfl⟩

def freemapSetup : Check Unit := do
  let w ← get
  let mapblocks := sbFreemapblocks w.nblocks
  domalloc
  domalloc
  modify fun w => { w with findings := { w.findings with freemap := Freemap.empty } }
  (List.range' w.nblocks (mapblocks*SFS_BITSPERBLOCK - w.nblocks)).foldlM
    (fun _ i => freemapBlockinuse i .pastend 0) ()
  freemapBlockinuse SFS_SUPER_BLOCK .superblock 0
  (List.range mapblocks).foldlM (fun _ i => freemapBlockinuse (SFS_FREEMAP_START+i) .freemapblock i) ()

/-- Eight bits of a map as a byte, the first of them the lowest. -/
def byteOf (map : ℕ → Bool) (start : ℕ) : UInt8 :=
  (List.range 8).foldl (fun b y => if map (start+y) = true then b ||| 1 <<< UInt8.ofNat y else b) 0

def countbits (val : UInt8) : ℕ := (List.range 8).countP fun y => val.toNat.testBit y

def reportfreemap (mapblock byte : ℕ) (val : UInt8) (allocated : Bool) : Check Unit :=
  (List.range 8).foldlM (fun _ y => onlyIf (val.toNat.testBit y = true)
    (warnx (.shownInFreemap (mapblock*SFS_BITSPERBLOCK + byte*8 + y) allocated))) ()

/-- A block of the map on the disk that is being put right, and how many blocks have been found to be wrong. -/
structure Scan where
  actual : Block
  bchanged : Bool
  alloccount : ℕ
  freecount : ℕ

/-- The body of the inner loop of `freemap_check`. -/
def checkByte (expected tofree : ℕ → UInt8) (i : ℕ) (s : Scan) (j : ℕ) : Check Scan := do
  require (expected j &&& tofree j = 0) .assertion
  if s.actual j = expected j then pure s
  else if s.actual j = expected j ||| tofree j then
    pure { s with actual := update s.actual j (expected j), bchanged := true }
  else do
    let actual := s.actual j &&& ~~~tofree j
    let short := if actual &&& expected j ≠ expected j then expected j &&& ~~~actual else 0
    let extra := if actual &&& expected j ≠ actual then actual &&& ~~~expected j else 0
    onlyIf (short ≠ 0) (reportfreemap i j short false)
    onlyIf (extra ≠ 0) (reportfreemap i j extra true)
    pure ⟨update s.actual j (expected j), true, s.alloccount + countbits short, s.freecount + countbits extra⟩

/-- The body of the outer loop, with both counts. -/
def checkMapblock (counts : ℕ × ℕ) (i : ℕ) : Check (ℕ × ℕ) := do
  let w ← get
  let actual ← diskread (SFS_FREEMAP_START + i)
  let s ← (List.range SFS_BLOCKSIZE).foldlM
    (checkByte (fun j => byteOf w.findings.freemap.freemapdata (i*SFS_BITSPERBLOCK + j*8))
      (fun j => byteOf w.findings.freemap.tofreedata (i*SFS_BITSPERBLOCK + j*8)) i) ⟨actual, false, counts.1, counts.2⟩
  onlyIf (s.bchanged = true) (diskwrite s.actual (SFS_FREEMAP_START + i))
  pure (s.alloccount, s.freecount)

def freemapCheck : Check Unit := do
  let w ← get
  let counts ← (List.range (sbFreemapblocks w.nblocks)).foldlM checkMapblock (0, 0)
  onlyIf (0 < counts.1) (do
    warnx (.shownFree counts.1)
    setbadness EXIT_RECOV)
  onlyIf (0 < counts.2) (do
    warnx (.shownUsed counts.2)
    setbadness EXIT_RECOV)

variable {w w' : World} {r : Fatal → Prop}

/-- The map on the disk lies where every block has a place of its own. -/
theorem freemap_small {i nblocks : ℕ} (h : i < sbFreemapblocks nblocks) : SFS_FREEMAP_START + i < 2^23 := by
  unfold sbFreemapblocks SFS_ROUNDUP SFS_BITSPERBLOCK at h
  unfold SFS_FREEMAP_START
  have := Nat.mod_lt (nblocks + 4096 - 1) (y := 2^32) (by decide)
  omega

/-- What the map has been set up with. -/
structure SetUp (w w' : World) : Prop where
  nblocks : w'.nblocks = w.nblocks
  inodes : w'.inodes = w.inodes
  trail : w'.trail = w.trail

theorem SetUp.trans {w'' : World} (h : SetUp w w') (h' : SetUp w' w'') : SetUp w w'' :=
  ⟨h'.nblocks.trans h.nblocks, h'.inodes.trans h.inodes, h'.trail.trans h.trail⟩

end OS161.SfsckFreemap
