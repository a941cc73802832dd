import OS161.Mksfs

/-!
# Checking a fresh volume

On a volume that mksfs has just made, sfsck agrees with the superblock, with
the root inode and with every bit of the map. It misses "." and ".." in the root
directory, cannot add them where the directory has no block, and then puts the
link count of the root right, which it takes to be two.
-/

set_option autoImplicit false

namespace OS161.FreshVolume

open Function OS161.Aborts OS161.Sfsck OS161.SfsckBlocks OS161.SfsckInodes OS161.SfsckDirectories OS161.SfsckPass1
open OS161.SfsckFreemap OS161.SfsckPass2 OS161.SfsckRun OS161.SfsckMain OS161.Mksfs
open OS161.Sfs (Block SFS_BLOCKSIZE SFS_NDIRECT zeros)

variable {n b : ℕ} {disk : ℕ → Block} {used : ℕ → Prop} {inodes : List Inodeinfo} {w : World} {r : Fatal → Prop} {sfi : Dinode}

/-- Nothing has been found to be wrong with a volume of `n` blocks. -/
structure Clean (n : ℕ) (disk : ℕ → Block) (used : ℕ → Prop) (inodes : List Inodeinfo) (w : World) : Prop where
  nblocks : w.nblocks = n
  dBlocks : w.dBlocks = n
  disk : w.disk = disk
  inuse : ∀ b, w.inUse b ↔ used b
  tofree : ∀ b, ¬w.toFree b
  reports : w.findings.reports = []
  badness : w.findings.badness = 0
  inodes : w.inodes = inodes

theorem Clean.congr {used' : ℕ → Prop} (h : Clean n disk used inodes w) (hsame : ∀ b, used b ↔ used' b) :
    Clean n disk used' inodes w :=
  { h with inuse := fun b => (h.inuse b).trans (hsame b) }

theorem domalloc_clean (h : Clean n disk used inodes w) :
    Ends (· = .memory) domalloc w (fun _ w' => Clean n disk used inodes w' ∧ w'.inodesSorted = w.inodesSorted) := by
  rw [domalloc, ends_bind, ends_get, ends_bind, ends_require]
  exact ⟨fun _ => ends_modify.mpr ⟨⟨h.nblocks, h.dBlocks, h.disk, h.inuse, h.tofree, h.reports, h.badness, h.inodes⟩, rfl⟩,
    fun _ => rfl⟩

/-- A block that has a place of its own. -/
theorem ends_diskread_clean {Q : Block → World → Prop} (h : Clean n disk used inodes w) (hb : b < n) (hsector : sector b = b)
    (hQ : Q (disk b) w) : Ends r (diskread b) w Q := by
  rw [diskread, ends_bind, ends_get, ends_bind, ends_require, hsector, h.dBlocks]
  refine ⟨fun _ => ends_pure.mpr ?_, fun hout => absurd hb hout⟩
  rw [h.disk]
  exact hQ

theorem blockinuse_clean {how : Blockusage} {howdesc : ℕ} (h : Clean n disk used inodes w) (hb : ¬used b) :
    Ends r (freemapBlockinuse b how howdesc) w (fun _ w' => Clean n disk (fun x => used x ∨ x = b) inodes w') := by
  rw [freemapBlockinuse, ends_bind, ends_get, ends_bind, ends_onlyIf]
  refine ⟨fun huse => absurd ((h.inuse b).mp huse) hb, fun _ => ?_⟩
  refine ends_modify.mpr ⟨h.nblocks, h.dBlocks, h.disk, fun x => ?_, fun x => ?_, h.reports, h.badness, h.inodes⟩
  · rw [← h.inuse x]
    by_cases hx : x = b
    · simp [World.inUse, Freemap.blockinuse, hx]
    · simp [World.inUse, Freemap.blockinuse, hx]
  · have hfree := h.tofree x
    by_cases hx : x = b
    · simp [World.toFree, Freemap.blockinuse, hx]
    · simpa [World.toFree, Freemap.blockinuse, hx] using hfree

/-- Marking blocks that are not in use one after the other. -/
theorem blocksinuse_clean {blocks : List ℕ} (block : ℕ → ℕ) {how : Blockusage} {howdesc : ℕ → ℕ}
    (h : Clean n disk used inodes w) (hnew : ∀ i ∈ blocks, ¬used (block i)) (hdistinct : (blocks.map block).Nodup) :
    Ends r (blocks.foldlM (fun _ i => freemapBlockinuse (block i) how (howdesc i)) ()) w (fun _ w' =>
      Clean n disk (fun x => used x ∨ ∃ i ∈ blocks, x = block i) inodes w') := by
  apply ends_foldlM (I := fun done (_ : Unit) w' => Clean n disk (fun x => used x ∨ ∃ i ∈ done, x = block i) inodes w')
  · rintro done i rest hblocks - w₁ h₁
    have hfresh : ¬(used (block i) ∨ ∃ k ∈ done, block i = block k) := by
      rintro (hused | ⟨k, hk, hsame⟩)
      · exact hnew i (by simp [hblocks]) hused
      · rw [hblocks, List.map_append, List.map_cons, List.nodup_append] at hdistinct
        exact hdistinct.2.2 _ (List.mem_map_of_mem hk) _ List.mem_cons_self hsame.symm
    apply (blockinuse_clean h₁ hfresh).imp
    intro _ w₂ h₂
    apply h₂.congr
    intro x
    simp only [List.mem_append, List.mem_singleton, or_and_right, exists_or, exists_eq_left, or_assoc]
  · apply h.congr
    simp

/-- The map is set up with all that is taken but the root. -/
theorem freemapSetup_clean (h : Clean n disk used [] w) (hroom : SFS_FREEMAP_START + sbFreemapblocks n ≤ n) :
    Ends (· = .memory) freemapSetup w (fun _ w' => Clean n disk (fun b => Taken n b ∧ b ≠ SFS_ROOTDIR_INO) [] w') := by
  rw [freemapSetup, ends_bind, ends_get, h.nblocks, ends_bind]
  apply (domalloc_clean h).imp
  rintro _ w₁ ⟨h₁, -⟩
  rw [ends_bind]
  apply (domalloc_clean h₁).imp
  rintro _ w₂ ⟨h₂, -⟩
  rw [ends_bind, ends_modify, ends_bind]
  have h₃ : Clean n disk nothing [] { w₂ with findings := { w₂.findings with freemap := Freemap.empty } } :=
    ⟨h₂.nblocks, h₂.dBlocks, h₂.disk, fun _ => by simp [World.inUse, Freemap.empty, nothing],
      fun _ => by simp [World.toFree, Freemap.empty], h₂.reports, h₂.badness, h₂.inodes⟩
  unfold SFS_FREEMAP_START at hroom
  have hpast : ∀ b, b ∈ List.range' n (sbFreemapblocks n * SFS_BITSPERBLOCK - n) ↔
      n ≤ b ∧ b < sbFreemapblocks n * SFS_BITSPERBLOCK := by
    intro b
    rw [List.mem_range'_1]
    omega
  apply (blocksinuse_clean id h₃ (fun _ _ hno => hno) (by rw [List.map_id]; exact List.nodup_range' ..)).imp
  intro _ w₄ h₄
  rw [ends_bind]
  have hsuper : ¬(nothing SFS_SUPER_BLOCK ∨ ∃ i ∈ List.range' n (sbFreemapblocks n * SFS_BITSPERBLOCK - n), SFS_SUPER_BLOCK = id i) := by
    rintro (hno | ⟨i, hi, hzero⟩)
    · exact hno
    · have := ((hpast i).mp hi).1
      change 0 = i at hzero
      omega
  apply (blockinuse_clean h₄ hsuper).imp
  intro _ w₅ h₅
  apply (blocksinuse_clean _ h₅ _ _).imp
  · intro _ w₆ h₆
    apply h₆.congr
    intro b
    simp only [nothing, false_or, id_eq, exists_eq_right', hpast, List.mem_range, Taken]
    unfold SFS_SUPER_BLOCK SFS_FREEMAP_START SFS_ROOTDIR_INO
    constructor
    · rintro ((hb | rfl) | ⟨i, hi, rfl⟩)
      · exact ⟨.inr hb, by omega⟩
      · exact ⟨.inl (by omega), by omega⟩
      · exact ⟨.inl (by omega), by omega⟩
    · rintro ⟨hb | hb, hroot⟩
      · by_cases hzero : b = 0
        · exact .inl (.inr hzero)
        · exact .inr ⟨b-2, by omega, by omega⟩
      · exact .inl (.inl hb)
  · intro i hi
    rw [List.mem_range] at hi
    simp only [nothing, false_or, id_eq, exists_eq_right', hpast]
    unfold SFS_SUPER_BLOCK SFS_FREEMAP_START
    omega
  · apply List.Nodup.map (fun _ _ => Nat.add_left_cancel)
    exact List.nodup_range

/-- A bit of a byte that has been put together. -/
theorem byteOf_bit (map : ℕ → Bool) (start : ℕ) {y : ℕ} (hy : y < 8) :
    (byteOf map start).toNat.testBit y = map (start+y) := by
  have hpow : ∀ k < 8, (1 <<< UInt8.ofNat k : UInt8).toNat = 2^k := by decide
  have hpart : ∀ k ≤ 8, ((List.range k).foldl
      (fun b y => if map (start+y) = true then b ||| 1 <<< UInt8.ofNat y else b) (0 : UInt8)).toNat.testBit y =
        (decide (y < k) && map (start+y)) := by
    intro k hk
    induction k with
    | zero => simp
    | succ k ih =>
      rw [List.range_succ, List.foldl_append, List.foldl_cons, List.foldl_nil]
      have ih := ih (by omega)
      by_cases hset : map (start+k) = true
      · rw [if_pos hset, UInt8.toNat_or, Nat.testBit_or, ih, hpow k (by omega), Nat.testBit_two_pow]
        by_cases hyk : y = k
        · simp [hyk, hset]
        · have hlt : y < k+1 ↔ y < k := by omega
          simp [hlt, Ne.symm hyk]
      · rw [if_neg hset, ih]
        by_cases hyk : y = k
        · simp [hyk, hset]
        · have hlt : y < k+1 ↔ y < k := by omega
          simp [hlt]
  rw [byteOf, hpart 8 (Nat.le_refl 8), decide_eq_true hy, Bool.true_and]

theorem eq_of_bits {a b : UInt8} (h : ∀ y < 8, a.toNat.testBit y = b.toNat.testBit y) : a = b := by
  apply UInt8.toNat_inj.mp
  apply Nat.eq_of_testBit_eq
  intro y
  by_cases hy : y < 8
  · exact h y hy
  · have hhigh : ∀ c : UInt8, c.toNat.testBit y = false := by
      intro c
      apply Nat.testBit_lt_two_pow
      calc c.toNat < 2^8 := c.toNat_lt
        _ ≤ 2^y := Nat.pow_le_pow_right (by decide) (by omega)
    rw [hhigh, hhigh]

/-- The map on the disk is as expected, and is left alone. -/
theorem freemapCheck_clean (hfresh : Fresh n disk) (h : Clean n disk (Taken n) inodes w) :
    Ends r freemapCheck w (fun _ w' => w' = w) := by
  have hnone : ∀ start, byteOf w.findings.freemap.tofreedata start = 0 := by
    intro start
    apply eq_of_bits
    intro y hy
    rw [byteOf_bit _ _ hy]
    simpa [World.toFree] using h.tofree (start+y)
  have hsame : ∀ i < sbFreemapblocks n, ∀ j < SFS_BLOCKSIZE, disk (SFS_FREEMAP_START+i) j =
      byteOf w.findings.freemap.freemapdata (i*SFS_BITSPERBLOCK + j*8) := by
    intro i hi j hj
    apply eq_of_bits
    intro y hy
    rw [byteOf_bit _ _ hy, Bool.eq_iff_iff, hfresh.map i hi j hj y hy]
    exact (h.inuse _).symm
  have hblock : ∀ i < sbFreemapblocks n, ∀ counts, Ends r (checkMapblock counts i) w (fun counts' w' =>
      counts' = counts ∧ w' = w) := by
    intro i hi counts
    rw [checkMapblock, ends_bind, ends_get, ends_bind]
    have hroom := hfresh.room (by omega)
    apply ends_diskread_clean h (by omega) (sector_small (freemap_small hi))
    rw [ends_bind]
    have hloop : Ends r ((List.range SFS_BLOCKSIZE).foldlM
        (checkByte (fun j => byteOf w.findings.freemap.freemapdata (i*SFS_BITSPERBLOCK + j*8))
          (fun j => byteOf w.findings.freemap.tofreedata (i*SFS_BITSPERBLOCK + j*8)) i)
        ⟨disk (SFS_FREEMAP_START+i), false, counts.1, counts.2⟩) w (fun s w' =>
          s = ⟨disk (SFS_FREEMAP_START+i), false, counts.1, counts.2⟩ ∧ w' = w) := by
      apply ends_rangeM (I := fun _ (s : SfsckFreemap.Scan) w' =>
        s = ⟨disk (SFS_FREEMAP_START+i), false, counts.1, counts.2⟩ ∧ w' = w)
      · rintro j hj _ _ ⟨rfl, rfl⟩
        rw [checkByte, ends_bind, ends_require]
        refine ⟨fun _ => ?_, fun hfail => absurd ?_ hfail⟩
        · rw [ends_ite]
          exact ⟨fun _ => ends_pure.mpr ⟨rfl, rfl⟩, fun hne => absurd (hsame i hi j hj) hne⟩
        · rw [hnone, UInt8.and_zero]
      · exact ⟨rfl, rfl⟩
    apply hloop.imp
    rintro _ _ ⟨rfl, rfl⟩
    rw [ends_bind, ends_onlyIf]
    exact ⟨fun hchanged => absurd hchanged Bool.false_ne_true, fun _ => ends_pure.mpr ⟨rfl, rfl⟩⟩
  rw [freemapCheck, ends_bind, ends_get, ends_bind, h.nblocks]
  have hloop : Ends r ((List.range (sbFreemapblocks n)).foldlM checkMapblock (0, 0)) w (fun counts w' =>
      counts = (0, 0) ∧ w' = w) := by
    apply ends_rangeM (I := fun _ (counts : ℕ × ℕ) w' => counts = (0, 0) ∧ w' = w)
    · rintro i hi _ _ ⟨rfl, rfl⟩
      exact hblock i hi (0, 0)
    · exact ⟨rfl, rfl⟩
  apply hloop.imp
  rintro _ _ ⟨rfl, rfl⟩
  rw [ends_bind, ends_onlyIf]
  refine ⟨fun hpos => absurd hpos (Nat.lt_irrefl 0), fun _ => ?_⟩
  rw [ends_onlyIf]
  exact ⟨fun hpos => absurd hpos (Nat.lt_irrefl 0), fun _ => rfl⟩

/-- An inode of a directory without entries and without blocks, which has one link. -/
structure Bare (sfi : Dinode) : Prop where
  size : sfi.size = 0
  type : sfi.type = SFS_TYPE_DIR
  linkcount : sfi.linkcount = 1
  direct : ∀ c < SFS_NDIRECT, sfi.direct c = 0
  indirect : sfi.indirect = 0
  waste : ∀ i, sfi.waste i = 0

theorem fresh_bare (h : Fresh n disk) : Bare (.ofBlock (disk SFS_ROOTDIR_INO)) := by
  have hsame := ofBlock_toBlock emptyRoot
  rw [h.root]
  refine ⟨hsame.size, hsame.type, half_bytes emptyRoot.linkcount_lt, hsame.direct, hsame.indirect, fun i => ?_⟩
  show emptyRoot.toBlock (12 + 4*SFS_NDIRECT + i) = 0
  unfold SFS_NDIRECT
  rw [Dinode.toBlock, if_neg (by omega), if_neg (by omega), if_neg (by omega), if_neg (by unfold SFS_NDIRECT; omega),
    if_neg (by unfold SFS_NDIRECT; omega)]
  rfl

/-- The entry of the root in the table. -/
def rootEntry : Inodeinfo := ⟨SFS_ROOTDIR_INO, 0, false, SFS_TYPE_DIR⟩

theorem inodeAdd_clean (h : Clean n disk used [] w) : Ends (· = .memory) (inodeAdd SFS_ROOTDIR_INO SFS_TYPE_DIR) w
    (fun been w' => been = false ∧ Clean n disk used [rootEntry] w') := by
  rw [inodeAdd, ends_bind, ends_get, h.inodes]
  dsimp only [List.find?_nil]
  rw [ends_bind, inodeAddtable, ends_bind, ends_get, ends_bind, ends_require, h.inodes]
  refine ⟨fun _ => ?_, fun hmore => absurd (Nat.zero_le _) hmore⟩
  rw [ends_bind, ends_onlyIf]
  have hadded : ∀ {w'}, Clean n disk used [] w' →
      Clean n disk used [rootEntry] { w' with inodes := w'.inodes ++ [rootEntry], inodesSorted := false } := by
    intro w' h'
    refine ⟨h'.nblocks, h'.dBlocks, h'.disk, h'.inuse, h'.tofree, h'.reports, h'.badness, ?_⟩
    rw [h'.inodes, List.nil_append]
  constructor
  · intro hfull
    have hzero : w.maxinodes = 0 := hfull.symm
    rw [ends_bind, ends_require, hzero]
    refine ⟨fun _ => ?_, fun hlarge => absurd (by decide) hlarge⟩
    rw [ends_bind]
    apply (domalloc_clean h).imp
    rintro _ w₁ ⟨h₁, -⟩
    refine ends_modify.mpr (ends_modify.mpr (ends_pure.mpr ⟨rfl, hadded ?_⟩))
    exact ⟨h₁.nblocks, h₁.dBlocks, h₁.disk, h₁.inuse, h₁.tofree, h₁.reports, h₁.badness, h₁.inodes⟩
  · intro _
    exact ends_modify.mpr (ends_pure.mpr ⟨rfl, hadded h⟩)

/-- Pointers that are zero are left alone. -/
theorem scan_zeros {k : ℕ} {entries : ℕ → ℕ} (ibs : Ibstate) (hzero : ∀ c < k, entries c = 0) (hpos : 0 < ibs.volblocks) :
    Ends r (scan checkDatablock k entries ibs) w (fun s w' => s.changed = false ∧
      s.ibs.volblocks = ibs.volblocks ∧ s.ibs.pasteofcount = ibs.pasteofcount ∧ w' = w) := by
  have hloop : Ends r (scan checkDatablock k entries ibs) w (fun s w' => s.entries = entries ∧ s.changed = false ∧
      s.ibs.volblocks = ibs.volblocks ∧ s.ibs.pasteofcount = ibs.pasteofcount ∧ w' = w) := by
    apply ends_rangeM (I := fun _ (s : SfsckBlocks.Scan) w' => s.entries = entries ∧ s.changed = false ∧
      s.ibs.volblocks = ibs.volblocks ∧ s.ibs.pasteofcount = ibs.pasteofcount ∧ w' = w)
    · rintro i hi s _ ⟨hentries, hchanged, hvolblocks, hcount, rfl⟩
      have hentry : s.entries i = 0 := by rw [hentries, hzero i hi]
      rw [scanEntry, ends_bind, checkDatablock, ends_ite, hentry, hvolblocks]
      refine ⟨fun hout => absurd hpos (Nat.not_lt_of_le hout), fun _ => ?_⟩
      rw [ends_ite]
      refine ⟨fun hne => absurd rfl hne, fun _ => ?_⟩
      refine ends_pure.mpr (ends_pure.mpr ⟨?_, ?_, hvolblocks, hcount, rfl⟩)
      · dsimp only
        rw [← hentry, update_eq_self, hentries]
      · dsimp only
        rw [hchanged, Bool.false_or]
    · exact ⟨rfl, rfl, rfl, rfl, rfl⟩
  exact hloop.imp fun _ _ h => h.2

theorem checkInodeBlocks_bare {ino : ℕ} {isdir : Bool} (h : Bare sfi) (hpos : 0 < w.nblocks) :
    Ends r (checkInodeBlocks ino sfi isdir) w (fun p w' => p.1 = false ∧ p.2.size = 0 ∧ w' = w) := by
  rw [checkInodeBlocks, ends_bind, ends_get, ends_bind]
  apply (scan_zeros (firstIbstate ino sfi isdir w) h.direct hpos).imp
  rintro s _ ⟨hchanged, hvolblocks, hcount, rfl⟩
  rw [ends_bind, checkIndirectBlock, indirectWith, h.indirect, ends_ite]
  refine ⟨fun hin => absurd hin.1 (Nat.lt_irrefl 0), fun _ => ?_⟩
  rw [ends_ite, hvolblocks]
  refine ⟨fun hout => absurd hpos (Nat.not_lt_of_le hout), fun _ => ?_⟩
  rw [ends_pure, ends_bind, ends_onlyIf]
  refine ⟨fun hpast => absurd hpast ?_, fun _ => ?_⟩
  · show ¬0 < s.ibs.pasteofcount
    rw [hcount]
    exact Nat.lt_irrefl 0
  · refine ends_pure.mpr ⟨?_, h.size, rfl⟩
    rw [hchanged]
    rfl

/-- Nothing is read of a directory without entries. -/
theorem sfsReaddir_none (sfi : Dinode) : Ends r (sfsReaddir sfi 0) w (fun _ w' => w' = w) := by
  rw [sfsReaddir, show SFS_ROUNDUP 0 atonce / atonce = 0 by decide]
  exact ends_pure.mpr rfl

theorem pass1Entries_none {ino : ℕ} {dir : ℕ → Check Unit} (h : Clean n disk used inodes w) (hsize : sfi.size = 0) :
    Ends (· = .memory) (pass1Entries ino dir sfi) w (fun _ w' => Clean n disk used inodes w') := by
  rw [pass1Entries, hsize, show 0 / direntrySize = 0 by decide, ends_bind]
  apply (domalloc_clean h).imp
  rintro _ w₁ ⟨h₁, -⟩
  rw [ends_bind]
  apply (sfsReaddir_none sfi).imp
  rintro d _ rfl
  rw [ends_bind, walk, List.range_zero, List.foldlM_nil, ends_pure, ends_bind, note, ends_modify, ends_bind, walk,
    List.range_zero, List.foldlM_nil, ends_pure, ends_onlyIf]
  refine ⟨fun hchanged => absurd hchanged Bool.false_ne_true, fun _ => ?_⟩
  exact ⟨h₁.nblocks, h₁.dBlocks, h₁.disk, h₁.inuse, h₁.tofree, h₁.reports, h₁.badness, h₁.inodes⟩

/-- The first pass enters the root, and that is all. -/
theorem pass1_clean (hfresh : Fresh n disk) (hroot : SFS_ROOTDIR_INO < n)
    (h : Clean n disk (fun b => Taken n b ∧ b ≠ SFS_ROOTDIR_INO) [] w) :
    Ends (· = .memory) pass1 w (fun _ w' => Clean n disk (Taken n) [rootEntry] w') := by
  have hbare := fresh_bare hfresh
  have hsector : sector SFS_ROOTDIR_INO = SFS_ROOTDIR_INO := by decide
  rw [pass1, ends_bind, checkRoot, ends_bind, sfsReadinode, ends_bind]
  apply ends_diskread_clean h hroot hsector
  rw [ends_pure, ends_onlyIf]
  refine ⟨fun hother => absurd hbare.type hother, fun _ => ?_⟩
  rw [ends_bind, ends_get, enoughFuel, pass1Dir, ends_bind, sfsReadinode, ends_bind]
  apply ends_diskread_clean h hroot hsector
  rw [ends_pure, ends_bind, checkSize, ends_ite]
  refine ⟨fun hodd => absurd (by rw [hbare.size]; rfl) hodd, fun _ => ?_⟩
  rw [ends_pure, ends_bind, pass1Inode, hbare.type, ends_bind]
  apply (inodeAdd_clean h).imp
  rintro _ w₁ ⟨rfl, h₁⟩
  rw [if_neg Bool.false_ne_true, ends_bind]
  apply (blockinuse_clean h₁ fun hused => hused.2 rfl).imp
  intro _ w₂ h₂
  have hwaste : checkWaste SFS_ROOTDIR_INO (.ofBlock (disk SFS_ROOTDIR_INO)) =
      pure (false, .ofBlock (disk SFS_ROOTDIR_INO)) := by
    apply if_neg
    rw [List.any_eq_true]
    rintro ⟨i, -, hne⟩
    rw [hbare.waste i] at hne
    cases hne
  rw [ends_bind, hwaste, ends_pure, ends_bind]
  apply (checkInodeBlocks_bare hbare (by rw [h₂.nblocks]; omega)).imp
  rintro ⟨changed, sfi⟩ w₃ ⟨rfl, hsize, hw₃⟩
  rw [hw₃, ends_bind, note, ends_modify, ends_bind, ends_onlyIf]
  refine ⟨fun hchanged => absurd hchanged Bool.false_ne_true, fun _ => ?_⟩
  rw [ends_pure, ends_onlyIf]
  refine ⟨fun _ => ?_, fun hbeen => absurd rfl hbeen⟩
  have h₃ : Clean n disk (Taken n) [rootEntry] w₂ := by
    apply h₂.congr
    intro b
    unfold Taken SFS_ROOTDIR_INO SFS_FREEMAP_START
    by_cases hb : b = 1
    · simp [hb]
      omega
    · simp [hb]
  exact pass1Entries_none ⟨h₃.nblocks, h₃.dBlocks, h₃.disk, h₃.inuse, h₃.tofree, h₃.reports, h₃.badness, h₃.inodes⟩ hsize

/-- What is found to be wrong. -/
def missedDots : List Report :=
  [.dotNotFixed SFS_ROOTDIR_INO, .dotdotNotFixed SFS_ROOTDIR_INO, .linkCount SFS_ROOTDIR_INO 1]

/-- What the second pass leaves. -/
structure Missed (disk : ℕ → Block) (w : World) : Prop where
  badness : w.findings.badness = EXIT_UNRECOV
  reports : w.findings.reports = missedDots
  disk : w.disk = update disk SFS_ROOTDIR_INO
    (Dinode.setLinkcount 2 (.ofBlock (disk SFS_ROOTDIR_INO))).toBlock
  inodes : w.inodes = [marked rootEntry]

/-- The state after a complaint. -/
def complained (code : ℕ) (t : Report) (w : World) : World := { w with findings := { w.findings with
  badness := max w.findings.badness code
  reports := w.findings.reports ++ [t] } }

theorem ends_complain {α : Type} {c : Check α} {Q : α → World → Prop} {code : ℕ} {t : Report} : Ends r (do
    setbadness code
    warnx t
    c) w Q ↔ Ends r c (complained code t w) Q := by
  rw [ends_bind, setbadness, ends_modify, ends_bind, warnx, ends_modify]
  rfl

/-- A missing entry cannot be added where there is no entry at all. -/
theorem addMissing_none {name : List UInt8} {target : ℕ} {added notFixed : Report} {s : Dir} (hnd : s.nd = 0) :
    Ends r (addMissing name target 0 added notFixed s) w (fun s' w' => s' = s ∧ w' = complained EXIT_UNRECOV notFixed w) := by
  have hnone : ∀ d, sfsdirTryadd d 0 name target = none := fun _ => rfl
  rw [addMissing, hnd, hnone]
  dsimp only
  rw [ends_complain, ends_pure]
  exact ⟨rfl, rfl⟩

/-- In a directory without entries both are missed. -/
theorem pass2Names_none {q : Qsort} {ino parentino : ℕ} {d : ℕ → Direntry} (hsize : sfi.size = 0) :
    Ends r (pass2Names q ino parentino 0 sfi d) w (fun s w' => s = ⟨d, 0, sfi, false, false⟩ ∧
      w' = complained EXIT_UNRECOV (.dotdotNotFixed ino) (complained EXIT_UNRECOV (.dotNotFixed ino) w)) := by
  have hsort : sfsdirSort q d 0 = [] := List.Perm.eq_nil (q.perm _ _)
  have hmerge : ∀ s, mergeNames ino [] s = pure s := fun _ => rfl
  rw [pass2Names, hsize, show 0 / direntrySize = 0 by decide, hsort, hmerge, ends_bind, ends_pure, ends_bind,
    List.range_zero, List.foldlM_nil, ends_pure, ends_bind, addUnless, if_neg Bool.false_ne_true]
  apply (addMissing_none rfl).imp
  rintro _ _ ⟨rfl, rfl⟩
  rw [addUnless, if_neg Bool.false_ne_true]
  exact addMissing_none rfl

theorem loadEntries_none (h : Clean n disk used inodes w) (hsize : sfi.size = 0) :
    Ends (· = .memory) (loadEntries sfi) w (fun _ w' => Clean n disk used inodes w') := by
  rw [loadEntries, hsize, show 0 / direntrySize = 0 by decide, ends_bind]
  apply (domalloc_clean h).imp
  rintro _ w₁ ⟨h₁, -⟩
  rw [ends_bind]
  apply (domalloc_clean h₁).imp
  rintro _ w₂ ⟨h₂, -⟩
  rw [ends_bind, ends_require]
  refine ⟨fun _ => ?_, fun hover => absurd (by decide) hover⟩
  rw [ends_bind]
  apply (sfsReaddir_none sfi).imp
  rintro d _ rfl
  exact ends_pure.mpr h₂

theorem inodeVisitdir_clean (h : Clean n disk used [rootEntry] w) (hsorted : w.inodesSorted = true) :
    Ends r (inodeVisitdir SFS_ROOTDIR_INO) w (fun been w' => been = false ∧ Clean n disk used [marked rootEntry] w') := by
  have hfound : bisect [rootEntry] SFS_ROOTDIR_INO 2 0 1 = pure 0 := rfl
  rw [inodeVisitdir, ends_bind, inodeFind, ends_bind, ends_get, ends_bind, ends_require]
  refine ⟨fun _ => ?_, fun hno => absurd hsorted hno⟩
  rw [ends_bind, ends_require, h.inodes]
  refine ⟨fun _ => ?_, fun hempty => absurd Nat.one_pos hempty⟩
  rw [List.length_singleton, hfound, ends_pure, ends_bind, entryAt, ends_bind, ends_get, h.inodes]
  dsimp only [List.getElem?_cons_zero]
  rw [ends_pure, ends_bind, ends_require]
  refine ⟨fun _ => ?_, fun htype => absurd rfl htype⟩
  rw [ends_bind, ends_require]
  refine ⟨fun _ => ?_, fun hlinks => absurd rfl hlinks⟩
  rw [if_neg (show ¬rootEntry.visited = true from Bool.false_ne_true), ends_bind, ends_modify, ends_pure]
  refine ⟨rfl, ⟨h.nblocks, h.dBlocks, h.disk, h.inuse, h.tofree, h.reports, h.badness, ?_⟩⟩
  show w.inodes.modify 0 marked = _
  rw [h.inodes]
  rfl

/-- Without subdirectories the link count should be two. -/
theorem pass2Entries_none {ino : ℕ} {dir : (ino parentino : ℕ) → Check Bool} {d : ℕ → Direntry} (hlinkcount : sfi.linkcount = 1)
    (hino : sector ino < w.dBlocks) : Ends r (pass2Entries ino dir ⟨d, 0, sfi, false, false⟩) w (fun _ w' =>
      w' = { complained EXIT_RECOV (.linkCount ino 1) w with
        disk := update w.disk (sector ino) (Dinode.setLinkcount 2 sfi).toBlock }) := by
  rw [pass2Entries, ends_bind, List.range_zero, List.foldlM_nil, ends_pure, ends_bind, fixLinkcount, hlinkcount,
    if_pos (show 1 ≠ (0 + 2) % 2^32 by decide), ends_complain, ends_pure, ends_bind, ends_onlyIf]
  refine ⟨fun hchanged => absurd hchanged Bool.false_ne_true, fun _ => ?_⟩
  rw [ends_onlyIf]
  refine ⟨fun _ => ?_, fun hsame => absurd rfl hsame⟩
  rw [sfsWriteinode, Sfsck.diskwrite, ends_bind, ends_get, ends_bind, ends_require]
  exact ⟨fun _ => ends_modify.mpr rfl, fun hout => absurd hino hout⟩

/-- The second pass misses both entries, and takes the link count to be wrong. -/
theorem pass2_misses (q : Qsort) (hfresh : Fresh n disk) (hroot : SFS_ROOTDIR_INO < n)
    (h : Clean n disk (Taken n) [rootEntry] w) (hsorted : w.inodesSorted = true) :
    Ends (· = .memory) (pass2 q) w (fun _ w' => Missed disk w') := by
  have hbare := fresh_bare hfresh
  have hsector : sector SFS_ROOTDIR_INO = SFS_ROOTDIR_INO := by decide
  rw [pass2, ends_bind, ends_get, ends_bind, depth, pass2Dir, ends_bind]
  apply (inodeVisitdir_clean h hsorted).imp
  rintro _ w₁ ⟨rfl, h₁⟩
  rw [if_neg Bool.false_ne_true, ends_bind, note, ends_modify]
  have h₂ : Clean n disk (Taken n) [marked rootEntry] { w₁ with trail := w₁.trail ++ [.processed SFS_ROOTDIR_INO] } :=
    ⟨h₁.nblocks, h₁.dBlocks, h₁.disk, h₁.inuse, h₁.tofree, h₁.reports, h₁.badness, h₁.inodes⟩
  rw [ends_bind, sfsReadinode, ends_bind]
  apply ends_diskread_clean h₂ hroot hsector
  rw [ends_pure, ends_bind]
  apply (loadEntries_none h₂ hbare.size).imp
  intro d w₃ h₃
  rw [hbare.size, show SFS_ROUNDUP (0 / direntrySize) atonce = 0 by decide, ends_bind]
  apply (pass2Names_none hbare.size).imp
  rintro _ _ ⟨rfl, rfl⟩
  rw [ends_bind]
  refine (pass2Entries_none hbare.linkcount ?_).imp ?_
  · show sector SFS_ROOTDIR_INO < w₃.dBlocks
    rw [hsector, h₃.dBlocks]
    exact hroot
  rintro _ _ rfl
  rw [ends_pure, ends_pure]
  refine ⟨?_, ?_, ?_, h₃.inodes⟩
  · show max (max (max w₃.findings.badness _) _) _ = _
    rw [h₃.badness]
    rfl
  · show ((w₃.findings.reports ++ [_]) ++ [_]) ++ [_] = _
    rw [h₃.reports]
    rfl
  · show update w₃.disk (sector SFS_ROOTDIR_INO) _ = _
    rw [h₃.disk, hsector]

theorem phase2_misses (q : Qsort) (hfresh : Fresh n disk) (hroot : SFS_ROOTDIR_INO < n)
    (h : Clean n disk (Taken n) [rootEntry] w) : Ends (· = .memory) (phase2 q) w (fun _ w' => Missed disk w') := by
  have hsorted : q.sort (fun a b => decide (a.ino ≤ b.ino)) [rootEntry] = [rootEntry] :=
    List.perm_singleton.mp (q.perm _ _)
  rw [phase2, ends_bind, inodeSorttable, ends_modify, h.inodes, hsorted]
  exact pass2_misses q hfresh hroot ⟨h.nblocks, h.dBlocks, h.disk, h.inuse, h.tofree, h.reports, h.badness, rfl⟩ rfl

/-- The superblock is loaded. -/
theorem sbLoad_loads {memory : ℕ → Bool} (hfresh : Fresh n disk) :
    Ends (fun e => e = .assertion ∧ sbFreemapblocks n = 0) sbLoad (SfsckMain.started n disk memory) (fun sb w =>
      0 < sbFreemapblocks n ∧ sb.Right ∧ Clean n disk nothing [] w) := by
  rw [sbLoad, ends_bind, Sfsck.diskread, ends_bind, ends_get, ends_bind, ends_require]
  refine ⟨fun _ => ?_, fun hout => absurd hfresh.device hout⟩
  rw [ends_pure, ends_bind, ends_require]
  refine ⟨fun _ => ?_, fun hother => absurd hfresh.magic hother⟩
  rw [ends_bind, ends_require]
  have hnblocks : (Superblock.ofBlock ((SfsckMain.started n disk memory).disk (sector SFS_SUPER_BLOCK))).nblocks = n := hfresh.nblocks
  rw [hnblocks]
  refine ⟨fun _ => ?_, fun hnone => absurd hfresh.device hnone⟩
  rw [ends_bind, ends_require]
  refine ⟨fun hpos => ?_, fun hnone => ⟨rfl, Nat.eq_zero_of_not_pos hnone⟩⟩
  rw [ends_bind, ends_modify, ends_pure]
  exact ⟨hpos, hfresh.right, ⟨rfl, rfl, rfl, fun _ => ⟨fun huse => absurd huse Bool.false_ne_true, False.elim⟩,
    fun _ => Bool.false_ne_true, rfl, rfl, rfl⟩⟩

/-- On a fresh volume, the checker stops only where it has no memory, and on one that is so large that the size of its
map comes out as zero; otherwise it complains of the entries that it misses and writes the root. -/
theorem main_misses (q : Qsort) (memory : ℕ → Bool) (hfresh : Fresh n disk) :
    Ends (fun e => e = .memory ∨ e = .assertion ∧ sbFreemapblocks n = 0) (SfsckMain.main q) (SfsckMain.started n disk memory)
      (fun status w => status = EXIT_UNRECOV ∧ Missed disk w) := by
  rw [SfsckMain.main, ends_bind]
  apply (sbLoad_loads hfresh).mono (fun _ => .inr)
  rintro sb w₁ ⟨hpos, hright, h₁⟩
  rw [ends_bind]
  apply (sbCheck_right hright).imp
  rintro _ _ rfl
  have hroom := hfresh.room hpos
  have hroot : SFS_ROOTDIR_INO < n := by
    unfold SFS_FREEMAP_START at hroom
    unfold SFS_ROOTDIR_INO
    omega
  rw [ends_bind, phase1, ends_bind]
  apply (freemapSetup_clean h₁ hroom).mono (fun _ => .inl)
  intro _ w₂ h₂
  rw [ends_bind]
  apply (pass1_clean hfresh hroot h₂).mono (fun _ => .inl)
  intro _ w₃ h₃
  apply (freemapCheck_clean hfresh h₃).imp
  rintro _ _ rfl
  rw [ends_bind]
  apply (phase2_misses q hfresh hroot h₃).mono (fun _ => .inl)
  intro _ w₄ h₄
  rw [ends_bind, inodeAdjustFilelinks, ends_bind, ends_get, h₄.inodes, List.foldlM_cons, ends_bind, adjustLinks,
    if_pos (show (marked rootEntry).type = SFS_TYPE_DIR from rfl), ends_pure, List.foldlM_nil, ends_pure, ends_bind,
    ends_get, ends_bind, ends_require]
  exact ⟨fun _ => ends_pure.mpr ⟨h₄.badness, h₄⟩, fun hother => absurd (.inl h₄.badness) hother⟩

/-- The root has been written. -/
theorem missed_written (hfresh : Fresh n disk) (h : Missed disk w) : w.disk ≠ disk := by
  intro hsame
  have hroot := congrFun hsame SFS_ROOTDIR_INO
  rw [h.disk, update_self] at hroot
  have hlinks : (Dinode.ofBlock (disk SFS_ROOTDIR_INO)).linkcount = 2 := by
    rw [← hroot]
    exact half_bytes (Dinode.linkcount_lt _)
  rw [(fresh_bare hfresh).linkcount] at hlinks
  cases hlinks

/-- No volume that mksfs makes is found to be clean by sfsck: where it does not run out of memory, and the size of the
map has not come out as zero, it agrees with everything but the root directory, in which it misses "." and "..". -/
theorem fresh_unclean (q : Qsort) (arg : List UInt8) (disk : ℕ → Block) (memory : ℕ → Bool) (hn : n < 2^32) :
    ∀ v, Mksfs.main arg (Mksfs.started n disk) = .ok ((), v) →
      (¬∃ w, SfsckMain.main q (SfsckMain.started n v.disk memory) = .ok (EXIT_CLEAN, w) ∧ w.disk = v.disk) ∧
      Ends (fun e => e = .memory ∨ e = .assertion ∧ sbFreemapblocks n = 0) (SfsckMain.main q)
        (SfsckMain.started n v.disk memory) (fun status w =>
          status = EXIT_UNRECOV ∧ w.findings.reports = missedDots ∧ w.disk ≠ v.disk) := by
  intro v hmade
  have hfresh := (main_makes arg disk hn).ok hmade
  have hends := main_misses q memory hfresh
  refine ⟨?_, hends.imp fun _ w h => ⟨h.1, h.2.reports, missed_written hfresh h.2⟩⟩
  rintro ⟨w, hrun, -⟩
  obtain ⟨hstatus, -⟩ := hends.ok hrun
  cases hstatus

/-- A volume of one block of map. -/
def smallDevice : Volume := Mksfs.started 4096 fun _ => zeros

theorem smallDevice_made : ∃ v, Mksfs.main [97] smallDevice = .ok ((), v) := by
  have hok : (Mksfs.main [97] smallDevice).isOk = true := by decide +kernel
  cases hmade : Mksfs.main [97] smallDevice with
  | error e =>
    rw [hmade] at hok
    cases hok
  | ok p => exact ⟨p.2, rfl⟩

theorem smallDevice_unclean : ∃ v, Mksfs.main [97] smallDevice = .ok ((), v) ∧
    ¬∃ w, SfsckMain.main insertionQsort (SfsckMain.started 4096 v.disk fun _ => true) = .ok (EXIT_CLEAN, w) ∧ w.disk = v.disk := by
  obtain ⟨v, hmade⟩ := smallDevice_made
  exact ⟨v, hmade, (fresh_unclean insertionQsort [97] (fun _ => zeros) (fun _ => true) (by decide) v hmade).1⟩

theorem smallDevice_missed : ¬∀ (q : Qsort) (arg : List UInt8) (n : ℕ) (disk : ℕ → Block) (memory : ℕ → Bool) (v : Volume),
    n < 2^32 → Mksfs.main arg (Mksfs.started n disk) = .ok ((), v) →
    ∃ w, SfsckMain.main q (SfsckMain.started n v.disk memory) = .ok (EXIT_CLEAN, w) ∧ w.disk = v.disk := by
  intro h
  obtain ⟨v, hmade⟩ := smallDevice_made
  obtain ⟨w, hrun, -⟩ := h insertionQsort [97] 4096 (fun _ => zeros) (fun _ => true) v (by decide) hmade
  have hfresh := (main_makes [97] (fun _ => zeros) (by decide)).ok hmade
  have hstatus := ((main_misses insertionQsort (fun _ => true) hfresh).ok hrun).1
  cases hstatus

end OS161.FreshVolume
