import Mathlib.Data.List.GetD
import Mathlib.Data.List.TakeWhile
import OS161.SfsckMain

/-!
# Volumes as mksfs makes them

The program writes the superblock, the map of free blocks and the inode of a
root directory without entries. The checker agrees with it on the map, but
misses the entries "." and "..", for which the directory has no block.
-/

set_option autoImplicit false

namespace OS161.Mksfs

open Function OS161.Aborts OS161.CopyInOut OS161.SfsckMain
open OS161.Sfsck (SFS_SUPER_BLOCK SFS_FREEMAP_START SFS_ROOTDIR_INO SFS_TYPE_DIR SFS_ROUNDUP Dinode)
open OS161.Sfsck (sector sector_small zero_lt_word one_lt_half typeDir_lt)
open OS161.SfsckFreemap (SFS_BITSPERBLOCK sbFreemapblocks)
open OS161.SfsckPass1 (badCharacter)
open OS161.Sfs (Block SFS_BLOCKSIZE)

def MAXFREEMAPBLOCKS : ℕ := 32

/-- Why no volume is made. -/
inductive Stop where
  | illegalName
  | tooLong
  | tooLarge
  | assertion
  | io
  deriving DecidableEq

/-- The map in memory and the device, of `nblocks` blocks. -/
structure Volume where
  freemapbuf : ℕ → UInt8
  nblocks : ℕ
  disk : ℕ → Block

abbrev Make := Action Stop Volume

def diskwrite (data : Block) (block : ℕ) : Make Unit := do
  let v ← get
  require (sector block < v.nblocks) .io
  modify fun v => { v with disk := update v.disk (sector block) data }

def maskOf (block : ℕ) : UInt8 := 1 <<< UInt8.ofNat (block % 8)

def allocblock (block : ℕ) : Make Unit := do
  let v ← get
  require (v.freemapbuf (block/8) &&& maskOf block = 0) .assertion
  modify fun v => { v with freemapbuf := update v.freemapbuf (block/8) (v.freemapbuf (block/8) ||| maskOf block) }

def initfreemap (fsblocks : ℕ) : Make Unit := do
  let freemapbits := SFS_ROUNDUP fsblocks SFS_BITSPERBLOCK
  let freemapblocks := sbFreemapblocks fsblocks
  require (freemapblocks ≤ MAXFREEMAPBLOCKS) .tooLarge
  allocblock SFS_SUPER_BLOCK
  allocblock SFS_ROOTDIR_INO
  (List.range freemapblocks).foldlM (fun _ i => allocblock (SFS_FREEMAP_START+i)) ()
  (List.range' fsblocks (freemapbits - fsblocks)).foldlM (fun _ i => allocblock i) ()

/-- A superblock with everything else zero. -/
def freshSuperblock (volname : List UInt8) (nblocks : ℕ) : Superblock :=
  ⟨SFS_MAGIC, nblocks, fun i => volname.getD i 0, fun _ => 0⟩

def writesuper (volname : List UInt8) (nblocks : ℕ) : Make Unit := do
  require (volname.length < SFS_VOLNAME_SIZE) .tooLong
  diskwrite (freshSuperblock volname nblocks).toBlock SFS_SUPER_BLOCK

def writefreemap (fsblocks : ℕ) : Make Unit := do
  let v ← get
  (List.range (sbFreemapblocks fsblocks)).foldlM
    (fun _ i => diskwrite (fun j => v.freemapbuf (i*SFS_BLOCKSIZE + j)) (SFS_FREEMAP_START+i)) ()

/-- An inode without blocks, with one link. -/
def emptyRoot : Dinode where
  size := 0
  type := SFS_TYPE_DIR
  linkcount := 1
  direct _ := 0
  indirect := 0
  waste _ := 0
  size_lt := zero_lt_word
  type_lt := typeDir_lt
  linkcount_lt := one_lt_half
  direct_lt _ := zero_lt_word
  indirect_lt := zero_lt_word

def writerootdir : Make Unit := diskwrite emptyRoot.toBlock SFS_ROOTDIR_INO

/-- The name of the volume that is asked for, without a colon at its end. -/
def volumeName (arg : List UInt8) : Make (List UInt8) := do
  require ((arg.dropWhile (· != 58)).length ≤ 1) .illegalName
  let volname := arg.takeWhile (· != 58)
  require (47 ∉ volname) .illegalName
  pure volname

def main (arg : List UInt8) : Make Unit := do
  let volname ← volumeName arg
  let v ← get
  initfreemap v.nblocks
  writesuper volname v.nblocks
  writefreemap v.nblocks
  writerootdir

/-- The program when it starts on a device. -/
def started (nblocks : ℕ) (disk : ℕ → Block) : Volume := ⟨fun _ => 0, nblocks, disk⟩

variable {v v' : Volume} {b block n : ℕ} {volname : List UInt8}

/-- Whether the bit of a block is set. -/
def shown (map : ℕ → UInt8) (b : ℕ) : Bool := (map (b/8)).toNat.testBit (b%8)

theorem maskOf_bit (block k : ℕ) : (maskOf block).toNat.testBit k = decide (block % 8 = k) := by
  have hpow : ∀ j < 8, (1 <<< UInt8.ofNat j : UInt8).toNat = 2^j := by decide
  rw [maskOf, hpow _ (Nat.mod_lt _ (by decide)), Nat.testBit_two_pow]

theorem shown_or (map : ℕ → UInt8) (block b : ℕ) :
    shown (update map (block/8) (map (block/8) ||| maskOf block)) b = (shown map b || decide (b = block)) := by
  unfold shown
  by_cases hbyte : b/8 = block/8
  · have hsame : block % 8 = b % 8 ↔ b = block := by omega
    rw [hbyte, update_self, UInt8.toNat_or, Nat.testBit_or, maskOf_bit]
    simp only [hsame]
  · have hne : b ≠ block := fun h => hbyte (congrArg (· / 8) h)
    rw [update_of_ne hbyte, decide_eq_false hne, Bool.or_false]

/-- The assertion that a block is not allocated twice. -/
theorem shown_clear {map : ℕ → UInt8} (h : map (block/8) &&& maskOf block = 0) : shown map block = false := by
  have hbit : ((map (block/8) &&& maskOf block).toNat).testBit (block % 8) = false := by
    rw [h]
    exact Nat.zero_testBit _
  rw [UInt8.toNat_and, Nat.testBit_and, maskOf_bit, decide_eq_true rfl, Bool.and_true] at hbit
  exact hbit

/-- Some blocks are allocated that had not been allocated before. -/
structure Allocates (added : ℕ → Prop) (v v' : Volume) : Prop where
  rest : v' = { v with freemapbuf := v'.freemapbuf }
  fresh : ∀ b, added b → shown v.freemapbuf b = false
  shown : ∀ b, shown v'.freemapbuf b = true ↔ shown v.freemapbuf b = true ∨ added b

theorem Allocates.trans {added added' : ℕ → Prop} {v'' : Volume} (h : Allocates added v v')
    (h' : Allocates added' v' v'') : Allocates (fun b => added b ∨ added' b) v v'' where
  rest := by rw [h'.rest, h.rest]
  fresh b hb := by
    obtain hb | hb := hb
    · exact h.fresh b hb
    · by_contra hset
      have hkept := (h.shown b).mpr (.inl (by simpa using hset))
      rw [h'.fresh b hb] at hkept
      cases hkept
  shown b := by rw [h'.shown, h.shown, or_assoc]

/-- What is allocated twice stops the program. -/
theorem Allocates.apart {added added' : ℕ → Prop} {v'' : Volume} (h : Allocates added v v')
    (h' : Allocates added' v' v'') (hb : added b) : ¬added' b := by
  intro hb'
  have hkept := (h.shown b).mpr (.inr hb)
  rw [h'.fresh b hb'] at hkept
  cases hkept

theorem Allocates.congr {added added' : ℕ → Prop} (h : Allocates added v v') (hsame : ∀ b, added b ↔ added' b) :
    Allocates added' v v' := by
  obtain rfl : added = added' := funext fun b => propext (hsame b)
  exact h

theorem allocates_nothing (v : Volume) : Allocates (fun _ => False) v v :=
  ⟨rfl, fun _ h => h.elim, fun _ => (or_false _).symm ▸ Iff.rfl⟩

theorem allocblock_allocates (block : ℕ) :
    Ends (fun _ => True) (allocblock block) v (fun _ v' => Allocates (· = block) v v') := by
  rw [allocblock, ends_bind, ends_get, ends_bind, ends_require]
  refine ⟨fun hmask => ?_, fun _ => trivial⟩
  refine ends_modify.mpr ⟨rfl, ?_, fun b => ?_⟩
  · rintro b rfl
    exact shown_clear hmask
  · dsimp only
    rw [shown_or, Bool.or_eq_true, decide_eq_true_iff]

theorem allocblocks_allocate (blocks : List ℕ) (block : ℕ → ℕ) :
    Ends (fun _ => True) (blocks.foldlM (fun _ i => allocblock (block i)) ()) v (fun _ v' =>
      Allocates (fun b => ∃ i ∈ blocks, b = block i) v v') := by
  apply ends_foldlM (I := fun done _ (v' : Volume) => Allocates (fun b => ∃ i ∈ done, b = block i) v v')
  · intro done i rest _ _ v₁ h₁
    apply (allocblock_allocates (block i)).imp
    intro _ v₂ h₂
    apply (h₁.trans h₂).congr
    intro b
    simp only [List.mem_append, List.mem_singleton, or_and_right, exists_or, exists_eq_left]
  · apply (allocates_nothing v).congr
    simp

/-- The blocks that are taken on a volume with nothing on it: those before the first free one, and what the map has
past the end. -/
def Taken (n b : ℕ) : Prop := b < SFS_FREEMAP_START + sbFreemapblocks n ∨ n ≤ b ∧ b < sbFreemapblocks n * SFS_BITSPERBLOCK

theorem roundup_bits (n : ℕ) : SFS_ROUNDUP n SFS_BITSPERBLOCK = sbFreemapblocks n * SFS_BITSPERBLOCK := by
  unfold sbFreemapblocks SFS_ROUNDUP SFS_BITSPERBLOCK
  omega

/-- What is allocated at first, where nothing had been; what lies past the end comes after what is taken. -/
theorem initfreemap_allocates (n : ℕ) (hclear : ∀ b, shown v.freemapbuf b = false) :
    Ends (fun _ => True) (initfreemap n) v (fun _ v' => v' = { v with freemapbuf := v'.freemapbuf } ∧
      sbFreemapblocks n ≤ MAXFREEMAPBLOCKS ∧ (∀ b, shown v'.freemapbuf b = true ↔ Taken n b) ∧
      ∀ b, n ≤ b → b < sbFreemapblocks n * SFS_BITSPERBLOCK → SFS_FREEMAP_START + sbFreemapblocks n ≤ b) := by
  rw [initfreemap, ends_bind, ends_require]
  refine ⟨fun hmax => ?_, fun _ => trivial⟩
  rw [ends_bind]
  apply (allocblock_allocates _).imp
  intro _ v₁ h₁
  rw [ends_bind]
  apply (allocblock_allocates _).imp
  intro _ v₂ h₂
  rw [ends_bind]
  apply (allocblocks_allocate _ _).imp
  intro _ v₃ h₃
  have h₀ : Allocates (fun b => b < SFS_FREEMAP_START + sbFreemapblocks n) v v₃ := by
    apply ((h₁.trans h₂).trans h₃).congr
    intro b
    simp only [List.mem_range]
    constructor
    · rintro ((rfl | rfl) | ⟨i, hi, rfl⟩)
      · exact Nat.lt_of_lt_of_le (by decide) (Nat.le_add_right _ _)
      · exact Nat.lt_of_lt_of_le (by decide) (Nat.le_add_right _ _)
      · exact Nat.add_lt_add_left hi _
    · intro hb
      unfold SFS_FREEMAP_START at hb ⊢
      by_cases hmap : 2 ≤ b
      · exact .inr ⟨b-2, by omega, by omega⟩
      · obtain rfl | rfl : b = 0 ∨ b = 1 := by omega
        · exact .inl (.inl rfl)
        · exact .inl (.inr rfl)
  apply (allocblocks_allocate _ _).imp
  intro _ v₄ h₄
  have hpast : ∀ b, (∃ i ∈ List.range' n (SFS_ROUNDUP n SFS_BITSPERBLOCK - n), b = i) ↔
      n ≤ b ∧ b < sbFreemapblocks n * SFS_BITSPERBLOCK := by
    intro b
    simp only [exists_eq_right', List.mem_range'_1, roundup_bits]
    omega
  have h₅ := h₄.congr hpast
  refine ⟨(h₀.trans h₅).rest, hmax, fun b => ?_, fun b hn hb => ?_⟩
  · rw [(h₀.trans h₅).shown, hclear b]
    simp [Taken]
  · by_contra hlow
    exact h₀.apart h₅ (Nat.lt_of_not_le hlow) ⟨hn, hb⟩


theorem diskwrite_writes (data : Block) (block : ℕ) : Ends (fun _ => True) (diskwrite data block) v (fun _ v' =>
    v' = { v with disk := update v.disk (sector block) data } ∧ sector block < v.nblocks) := by
  rw [diskwrite, ends_bind, ends_get, ends_bind, ends_require]
  exact ⟨fun hin => ends_modify.mpr ⟨rfl, hin⟩, fun _ => trivial⟩

/-- The name has none of the characters that the checker does not allow. -/
theorem volumeName_good (arg : List UInt8) : Ends (fun _ => True) (volumeName arg) v (fun volname v' =>
    v' = v ∧ ∀ c ∈ volname, badCharacter c = false) := by
  rw [volumeName, ends_bind, ends_require]
  refine ⟨fun _ => ?_, fun _ => trivial⟩
  rw [ends_bind, ends_require]
  refine ⟨fun hslash => ?_, fun _ => trivial⟩
  refine ends_pure.mpr ⟨rfl, fun c hc => ?_⟩
  have hcolon : c ≠ 58 := by simpa using List.mem_takeWhile_imp hc
  have hne : c ≠ 47 := by
    rintro rfl
    exact hslash hc
  simp [badCharacter, hcolon, hne]

theorem mem_of_cstring {n : ℕ} {l : List UInt8} {c : UInt8} (h : c ∈ cstring n fun i => l.getD i 0) : c ∈ l := by
  induction n generalizing l with
  | zero => cases h
  | succ n ih =>
    unfold cstring at h
    split at h
    · cases h
    · cases l with
      | nil => contradiction
      | cons a l =>
        obtain rfl | h := List.mem_cons.mp h
        · exact List.mem_cons_self
        · exact List.mem_cons_of_mem a (ih h)

/-- The superblock that is written. -/
theorem freshSuperblock_right (hlength : volname.length < SFS_VOLNAME_SIZE) (hname : ∀ c ∈ volname, badCharacter c = false) :
    (freshSuperblock volname n).Right where
  terminated := ⟨volname.length, hlength, List.getD_eq_default _ _ (Nat.le_refl _)⟩
  characters c hc := hname c (mem_of_cstring hc)
  reserved _ _ := rfl

/-- What the program leaves on a device. -/
structure Fresh (n : ℕ) (disk : ℕ → Block) : Prop where
  device : 0 < n
  magic : (Superblock.ofBlock (disk SFS_SUPER_BLOCK)).magic = SFS_MAGIC
  nblocks : (Superblock.ofBlock (disk SFS_SUPER_BLOCK)).nblocks = n
  right : (Superblock.ofBlock (disk SFS_SUPER_BLOCK)).Right
  root : disk SFS_ROOTDIR_INO = emptyRoot.toBlock
  mapblocks : sbFreemapblocks n ≤ MAXFREEMAPBLOCKS
  room : 0 < sbFreemapblocks n → SFS_FREEMAP_START + sbFreemapblocks n ≤ n
  map : ∀ i < sbFreemapblocks n, ∀ j < SFS_BLOCKSIZE, ∀ y < 8,
    (disk (SFS_FREEMAP_START+i) j).toNat.testBit y = true ↔ Taken n (i*SFS_BITSPERBLOCK + j*8 + y)

/-- The blocks of the map are written behind the superblock and the root. -/
theorem writefreemap_writes (hmapblocks : sbFreemapblocks n ≤ MAXFREEMAPBLOCKS) :
    Ends (fun _ => True) (writefreemap n) v (fun _ v' => v'.nblocks = v.nblocks ∧
      (∀ b < SFS_FREEMAP_START, v'.disk b = v.disk b) ∧
      ∀ i < sbFreemapblocks n, v'.disk (SFS_FREEMAP_START+i) = fun j => v.freemapbuf (i*SFS_BLOCKSIZE + j)) := by
  rw [writefreemap, ends_bind, ends_get]
  apply ends_rangeM (I := fun k (_ : Unit) (v' : Volume) => v'.nblocks = v.nblocks ∧
      (∀ b < SFS_FREEMAP_START, v'.disk b = v.disk b) ∧
      ∀ i < k, v'.disk (SFS_FREEMAP_START+i) = fun j => v.freemapbuf (i*SFS_BLOCKSIZE + j))
  · rintro k hk - v₁ ⟨hnblocks, hlow, hmap⟩
    apply (diskwrite_writes _ _).imp
    rintro _ v₂ ⟨rfl, -⟩
    have hsector : sector (SFS_FREEMAP_START+k) = SFS_FREEMAP_START+k := by
      apply sector_small
      unfold MAXFREEMAPBLOCKS at hmapblocks
      unfold SFS_FREEMAP_START
      omega
    rw [hsector]
    refine ⟨hnblocks, fun b hb => ?_, fun i hi => ?_⟩
    · rw [← hlow b hb]
      exact update_of_ne (by omega) _ _
    · obtain rfl | hlt : i = k ∨ i < k := by omega
      · exact update_self _ _ _
      · rw [← hmap i hlt]
        exact update_of_ne (by omega) _ _
  · exact ⟨rfl, fun _ _ => rfl, fun i hi => absurd hi (Nat.not_lt_zero i)⟩

/-- A volume that the program makes is as it should be. -/
theorem main_makes (arg : List UInt8) (disk : ℕ → Block) (hn : n < 2^32) :
    Ends (fun _ => True) (main arg) (started n disk) (fun _ v => Fresh n v.disk) := by
  rw [main, ends_bind]
  apply (volumeName_good arg).imp
  rintro volname _ ⟨rfl, hname⟩
  rw [ends_bind, ends_get, ends_bind]
  have hclear : ∀ b, shown (started n disk).freemapbuf b = false := fun b => Nat.zero_testBit (b%8)
  apply (initfreemap_allocates n hclear).imp
  rintro _ v₁ ⟨hv₁, hmapblocks, htaken, hpast⟩
  have hnblocks₁ : v₁.nblocks = n := by rw [hv₁]; rfl
  rw [ends_bind, writesuper, ends_bind, ends_require]
  refine ⟨fun hlength => ?_, fun _ => trivial⟩
  apply (diskwrite_writes _ _).imp
  rintro _ v₂ ⟨rfl, hin⟩
  rw [ends_bind]
  apply (writefreemap_writes hmapblocks).imp
  rintro _ v₃ ⟨-, hlow, hmap⟩
  apply (diskwrite_writes _ _).imp
  rintro _ v₄ ⟨rfl, -⟩
  have hsuper : update v₃.disk (sector SFS_ROOTDIR_INO) emptyRoot.toBlock SFS_SUPER_BLOCK =
      (freshSuperblock volname n).toBlock := by
    rw [update_of_ne (by decide), hlow _ (by decide)]
    show update v₁.disk (sector SFS_SUPER_BLOCK) (freshSuperblock volname n).toBlock SFS_SUPER_BLOCK = _
    rw [show sector SFS_SUPER_BLOCK = SFS_SUPER_BLOCK by decide, update_self]
  have hsame := superblock_toBlock (freshSuperblock volname n) (by show SFS_MAGIC < 2^32; decide) hn
  dsimp only
  refine ⟨?_, ?_, ?_, ?_, update_self _ _ _, hmapblocks, fun hpos => ?_, fun i hi j hj y hy => ?_⟩
  · rw [hnblocks₁] at hin
    exact Nat.lt_of_le_of_lt (Nat.zero_le _) hin
  · rw [hsuper]
    exact hsame.magic
  · rw [hsuper]
    exact hsame.nblocks
  · rw [hsuper]
    exact hsame.right (freshSuperblock_right hlength hname)
  · by_contra hlow
    have := hpast n (Nat.le_refl n)
    unfold SFS_BITSPERBLOCK SFS_FREEMAP_START at this
    unfold SFS_FREEMAP_START at hlow
    omega
  · have hat : update v₃.disk (sector SFS_ROOTDIR_INO) emptyRoot.toBlock (SFS_FREEMAP_START+i) =
        fun j => v₁.freemapbuf (i*SFS_BLOCKSIZE + j) := by
      rw [update_of_ne, hmap i hi]
      show 2+i ≠ 1
      omega
    rw [hat, ← htaken, shown]
    unfold SFS_BITSPERBLOCK
    unfold SFS_BLOCKSIZE at hj ⊢
    rw [show (i*4096 + j*8 + y) / 8 = i*512 + j by omega, show (i*4096 + j*8 + y) % 8 = y by omega]

end OS161.Mksfs
