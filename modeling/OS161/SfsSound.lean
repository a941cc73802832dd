import OS161.SfsVolume
import OS161.SfsckFreemap

/-!
# What a volume owns

The inode of a file is the one in its vnode or else the one on the disk. Every
block of a sound volume is free or in use for one purpose: for the volume itself,
as an inode, or for one file.
-/

set_option autoImplicit false

namespace OS161.SfsVolume

open Function OS161.Vfs OS161.CopyInOut OS161.Sfs OS161.SfsTruncate OS161.SfsOwnership OS161.SfsDir
open OS161.Sfsck (SFS_SUPER_BLOCK SFS_ROOTDIR_INO SFS_FREEMAP_START SFS_TYPE_FILE SFS_TYPE_DIR Dinode Alike)
open OS161.SfsckFreemap (sbFreemapblocks SFS_BITSPERBLOCK)

/-- The same bytes for the block, as far as a file has it. -/
def SameFile (x y : World) : Prop := mapped y = mapped x ∧ y.indirect = x.indirect ∧ ∀ e, Owns x e → y.disk e = x.disk e

variable {w w' x y : World} {d d' : Dinode} {s s' : Volume} {m : UserMemory} {e i j n v : ℕ}

theorem SameFile.owns (h : SameFile x y) (e : ℕ) : Owns y e ↔ Owns x e := by
  unfold Owns
  rw [h.1, h.2.1]

theorem SameFile.bytes (h : SameFile x y) (k : ℕ) : byteAt y k = byteAt x k := by
  refine byteAt_congr (fun c => ?_) k
  unfold blockData
  rw [h.1]
  split
  · rfl
  · next hne => exact h.2.2 _ (owns_mapped hne)

/-- Where the pointers of a file lead, if its blocks are the same. -/
theorem mapped_same (hind : y.indirect = x.indirect) (hdirect : ∀ c < SFS_NDIRECT, y.direct c = x.direct c)
    (hdisk : x.indirect ≠ 0 → y.disk x.indirect = x.disk x.indirect) : mapped y = mapped x := by
  funext c
  unfold mapped
  by_cases hc : c < SFS_NDIRECT
  · rw [if_pos hc, if_pos hc, hdirect c hc]
  · rw [if_neg hc, if_neg hc, hind]
    by_cases hzero : x.indirect = 0
    · rw [if_pos hzero, if_pos hzero]
    · rw [if_neg hzero, if_neg hzero, hdisk hzero]

/-- A file is as sound on a volume where its blocks are still in use. -/
theorem SameFile.sound (h : SameFile x y) (hx : WellFormed x) (hsize : y.size = x.size) (hnblocks : y.nblocks = x.nblocks)
    (hvolume : ∀ d, Free y d → 0 < d ∧ d < y.nblocks) (hdevice : y.nblocks ≤ y.dBlocks) (hwords : y.dBlocks < 2^32)
    (hused : ∀ e, Owns x e → y.freemap e = true) : WellFormed y := by
  refine ⟨hsize ▸ hx.size, hvolume, hdevice, hwords, ?_, ?_, ?_, ?_⟩
  · intro c hc
    rw [h.1] at hc ⊢
    exact ⟨hnblocks ▸ (hx.held c hc).1, hused _ (owns_mapped hc)⟩
  · intro hne
    rw [h.2.1] at hne ⊢
    exact ⟨hnblocks ▸ (hx.heldIndirect hne).1, hused _ (owns_indirect hne)⟩
  · rw [h.1]
    exact hx.once
  · rw [h.1, h.2.1]
    exact hx.apart

/-- A file beside one that is worked on. -/
theorem beside_same (hout : ∀ e, Owns x e → Outside w e) (hev : Evolves w w') (hx : x.disk = w.disk) :
    SameFile x { x with freemap := w'.freemap, disk := w'.disk } := by
  have hdisk : ∀ e, Owns x e → w'.disk e = x.disk e := by
    intro e he
    rw [hx]
    exact (hev.outside e (hout e he)).2
  exact ⟨mapped_same rfl (fun _ _ => rfl) fun hi => hdisk _ (owns_indirect hi), rfl, hdisk⟩

theorem store_same (h : w.freemap = s.freemap) : s.store w = { s with disk := w.disk } := by
  simp [Volume.store, h]

/-- The inode that is in use: in a vnode, or on the disk. -/
def inodeOf (s : Volume) (i : ℕ) : Dinode :=
  match s.vnodes.find? fun v => s.ino v = i with
  | some v => s.core v
  | none => .ofBlock (s.disk i)

def fileOf (s : Volume) (i : ℕ) : World := s.file (inodeOf s i) noMemory

/-- What the root directory lists. -/
def dir (s : Volume) : ℕ → Option (Name × ℕ) := entries (fileOf s SFS_ROOTDIR_INO)

def Loaded (s : Volume) (i : ℕ) : Prop := ∃ v ∈ s.vnodes, s.ino v = i

/-- The inodes that somebody can get at. -/
def Present (s : Volume) (i : ℕ) : Prop := i = SFS_ROOTDIR_INO ∨ Loaded s i ∨ ∃ k n, dir s k = some (n, i)

/-- The superblock, the bitmap and what is past the end. -/
def Reserved (nblocks e : ℕ) : Prop :=
  e = 0 ∨ (SFS_FREEMAP_START ≤ e ∧ e < SFS_FREEMAP_START + sbFreemapblocks nblocks) ∨ nblocks ≤ e

/-- The table has live vnodes, one for each number. -/
structure Tabled (s : Volume) : Prop where
  unique : ∀ v ∈ s.vnodes, ∀ u ∈ s.vnodes, s.ino v = s.ino u → v = u
  live : ∀ v ∈ s.vnodes, (s.vnode v).live = true
  fresh : ∀ v ∈ s.vnodes, v < s.nextVnode
  nodup : s.vnodes.Nodup

structure Blocks (s : Volume) : Prop where
  bits : s.nblocks ≤ s.nbits
  small : s.nblocks ≤ 2^23
  files : ∀ i, Present s i → WellFormed (fileOf s i)
  inodes : ∀ i, Present s i → i < s.nblocks ∧ s.freemap i = true ∧ ¬Reserved s.nblocks i
  outside : ∀ i j, Present s i → Present s j → ¬Owns (fileOf s i) j
  apart : ∀ i j e, Present s i → Present s j → Owns (fileOf s i) e → Owns (fileOf s j) e → i = j
  reserved : ∀ e, Reserved s.nblocks e → (e < s.nblocks → s.freemap e = true) ∧ ∀ i, Present s i → ¬Owns (fileOf s i) e
  exact : ∀ e < s.nblocks, s.freemap e = true → Reserved s.nblocks e ∨ Present s e ∨ ∃ i, Present s i ∧ Owns (fileOf s i) e

theorem present_root (s : Volume) : Present s SFS_ROOTDIR_INO := .inl rfl

theorem present_loaded (hv : v ∈ s.vnodes) : Present s (s.ino v) := .inr (.inl ⟨v, hv, rfl⟩)

theorem inodeOf_loaded (h : Tabled s) (hv : v ∈ s.vnodes) : inodeOf s (s.ino v) = s.core v := by
  unfold inodeOf
  cases hfind : s.vnodes.find? fun u => s.ino u = s.ino v with
  | none =>
    have := List.find?_eq_none.mp hfind v hv
    simp at this
  | some u =>
    have hu := List.mem_of_find?_eq_some hfind
    have heq : s.ino u = s.ino v := by simpa using List.find?_some hfind
    rw [h.unique u hu v hv heq]

theorem inodeOf_unloaded (h : ¬Loaded s i) : inodeOf s i = .ofBlock (s.disk i) := by
  unfold inodeOf
  cases hfind : s.vnodes.find? fun u => s.ino u = i with
  | none => rfl
  | some u => exact absurd ⟨u, List.mem_of_find?_eq_some hfind, by simpa using List.find?_some hfind⟩ h

theorem fileOf_loaded (h : Tabled s) (hv : v ∈ s.vnodes) : fileOf s (s.ino v) = s.view v := by
  unfold fileOf Volume.view
  rw [inodeOf_loaded h hv]

/-- Blocks that another file or an inode has are not of this one. -/
theorem Blocks.outside_of_owns (h : Blocks s) (hi : Present s i) (hj : Present s j) (hne : i ≠ j) (he : Owns (fileOf s i) e) :
    Outside (fileOf s j) e :=
  ⟨(owns_held (h.files i hi) he).2, fun ho => hne (h.apart i j e hi hj he ho)⟩

theorem Blocks.outside_of_inode (h : Blocks s) (hi : Present s i) (hj : Present s j) : Outside (fileOf s i) j :=
  ⟨(h.inodes j hj).2.1, h.outside i j hi hj⟩

theorem Blocks.mounted (h : Blocks s) (hi : Present s i) : Mounted (fileOf s i) := ⟨h.files i hi, h.bits⟩

/-- The pointers of a file, put into an inode. -/
theorem ofFile_same (hw : WellFormed w) (hs : s.freemap = w.freemap ∧ s.disk = w.disk) :
    SameFile w (s.file (ofFile w d) m) := by
  have hindirect : w.indirect % 2^32 = w.indirect := by
    by_cases hzero : w.indirect = 0
    · rw [hzero]
      rfl
    · have hheld := (hw.heldIndirect hzero).1
      have hdevice := hw.device
      have hwords := hw.words
      exact Nat.mod_eq_of_lt (by omega)
  have hdirect : ∀ c < SFS_NDIRECT, w.direct c % 2^32 = w.direct c := by
    intro c hc
    by_cases hzero : w.direct c = 0
    · rw [hzero]
      rfl
    · have hheld := (hw.held c (by rwa [mapped_direct hc])).1
      rw [mapped_direct hc] at hheld
      have hdevice := hw.device
      have hwords := hw.words
      exact Nat.mod_eq_of_lt (by omega)
  refine ⟨mapped_same hindirect hdirect fun _ => ?_, hindirect, fun e _ => ?_⟩
  · exact congrFun hs.2 _
  · exact congrFun hs.2 e

/-! An operation on one file. -/

theorem keep_loaded (s : Volume) (v : ℕ) (w : World) (i : ℕ) : Loaded (s.keep v w) i ↔ Loaded s i := Iff.rfl

theorem Tabled.keep (h : Tabled s) (v : ℕ) (w : World) : Tabled (s.keep v w) := ⟨h.unique, h.live, h.fresh, h.nodup⟩

theorem keep_inodeOf_self (h : Tabled s) (hv : v ∈ s.vnodes) : inodeOf (s.keep v w) (s.ino v) = ofFile w (s.core v) := by
  have hsame : inodeOf (s.keep v w) ((s.keep v w).ino v) = (s.keep v w).core v := inodeOf_loaded (h.keep v w) hv
  rw [show s.ino v = (s.keep v w).ino v from rfl, hsame]
  exact update_self ..

theorem keep_inodeOf_other (h : Tabled s) (hi : i ≠ s.ino v) (hdisk : w.disk i = s.disk i) :
    inodeOf (s.keep v w) i = inodeOf s i := by
  by_cases hl : Loaded s i
  · obtain ⟨u, hu, rfl⟩ := hl
    have hne : u ≠ v := by
      rintro rfl
      exact hi rfl
    have hsame : inodeOf (s.keep v w) ((s.keep v w).ino u) = (s.keep v w).core u := inodeOf_loaded (h.keep v w) hu
    rw [show s.ino u = (s.keep v w).ino u from rfl, hsame, show (s.keep v w).ino u = s.ino u from rfl, inodeOf_loaded h hu]
    exact update_of_ne hne _ _
  · rw [inodeOf_unloaded hl, inodeOf_unloaded (s := s.keep v w) hl]
    exact congrArg Dinode.ofBlock hdisk

/-- What the files of the volume are after an operation on one of them. -/
structure Kept (s : Volume) (v : ℕ) (w : World) : Prop where
  self : SameFile w (fileOf (s.keep v w) (s.ino v))
  size : (fileOf (s.keep v w) (s.ino v)).size = w.size
  other : ∀ i, Present s i → i ≠ s.ino v → SameFile (fileOf s i) (fileOf (s.keep v w) i) ∧
    inodeOf (s.keep v w) i = inodeOf s i

theorem Blocks.kept (h : Blocks s) (ht : Tabled s) (hv : v ∈ s.vnodes) (hev : Evolves (s.view v) w) : Kept s v w := by
  have hself : fileOf (s.keep v w) (s.ino v) = (s.keep v w).file (ofFile w (s.core v)) noMemory := by
    rw [fileOf, keep_inodeOf_self ht hv]
  have hview := fileOf_loaded ht hv
  refine ⟨?_, ?_, ?_⟩
  · rw [hself]
    exact ofFile_same hev.mounted.sound ⟨rfl, rfl⟩
  · rw [hself]
    exact Nat.mod_eq_of_lt hev.mounted.sound.size
  · intro i hi hne
    have hout : Outside (s.view v) i := hview ▸ h.outside_of_inode (present_loaded hv) hi
    have hinode := keep_inodeOf_other ht hne (hev.outside i hout).2
    have hfile : fileOf (s.keep v w) i = { fileOf s i with freemap := w.freemap, disk := w.disk } := by
      rw [fileOf, hinode]
      rfl
    refine ⟨?_, hinode⟩
    rw [hfile]
    refine beside_same (fun e he => ?_) hev rfl
    rw [← hview]
    exact h.outside_of_owns hi (present_loaded hv) hne he

theorem Blocks.keep (h : Blocks s) (ht : Tabled s) (hv : v ∈ s.vnodes) (hev : Evolves (s.view v) w)
    (hpresent : ∀ i, Present (s.keep v w) i → Present s i) (hstay : ∀ i, Present s i → Present (s.keep v w) i) :
    Blocks (s.keep v w) := by
  have hk := h.kept ht hv hev
  have hp := present_loaded hv
  have hview := fileOf_loaded ht hv
  have hout : ∀ e, Outside (fileOf s (s.ino v)) e → Outside w e := fun e he => (hev.outside e (hview ▸ he)).1
  have hnblocks : w.nblocks = s.nblocks := hev.nblocks
  have hvolume : ∀ i d, Free (fileOf (s.keep v w) i) d → 0 < d ∧ d < s.nblocks := by
    rintro i d ⟨hlt, hfree⟩
    rw [← hnblocks]
    exact hev.mounted.sound.exist d ⟨by rw [hev.nbits]; exact hlt, hfree⟩
  have hother : ∀ i, Present s i → i ≠ s.ino v → ∀ e, Owns (fileOf (s.keep v w) i) e ↔ Owns (fileOf s i) e :=
    fun i hi hne e => (hk.other i hi hne).1.owns e
  have hself : ∀ e, Owns (fileOf (s.keep v w) (s.ino v)) e ↔ Owns w e := fun e => hk.self.owns e
  have hroot := h.files _ (present_root s)
  refine ⟨h.bits, h.small, ?_, ?_, ?_, ?_, ?_, ?_⟩
  · intro i hi
    by_cases hne : i = s.ino v
    · subst hne
      refine hk.self.sound hev.mounted.sound hk.size hnblocks.symm (hvolume _) ?_ ?_ ?_
      · exact hroot.device
      · exact hroot.words
      · exact fun e he => (owns_held hev.mounted.sound he).2
    · obtain ⟨hsame, hinode⟩ := hk.other i (hpresent i hi) hne
      have hsize : (fileOf (s.keep v w) i).size = (fileOf s i).size := by
        rw [fileOf, hinode]
        rfl
      refine hsame.sound (h.files i (hpresent i hi)) hsize rfl (hvolume _) hroot.device hroot.words ?_
      intro e he
      exact (hout e (h.outside_of_owns (hpresent i hi) hp hne he)).1
  · intro i hi
    have hold := hpresent i hi
    exact ⟨(h.inodes i hold).1, (hout i (h.outside_of_inode hp hold)).1, (h.inodes i hold).2.2⟩
  · intro i j hi hj
    by_cases hne : i = s.ino v
    · subst hne
      rw [hself]
      exact (hout j (h.outside_of_inode hp (hpresent j hj))).2
    · rw [hother i (hpresent i hi) hne]
      exact h.outside i j (hpresent i hi) (hpresent j hj)
  · intro i j e hi hj he he'
    by_cases hne : i = s.ino v
    · by_cases hne' : j = s.ino v
      · rw [hne, hne']
      · subst hne
        rw [hself] at he
        rw [hother j (hpresent j hj) hne'] at he'
        exact absurd he (hout e (h.outside_of_owns (hpresent j hj) hp hne' he')).2
    · rw [hother i (hpresent i hi) hne] at he
      by_cases hne' : j = s.ino v
      · subst hne'
        rw [hself] at he'
        exact absurd he' (hout e (h.outside_of_owns (hpresent i hi) hp hne he)).2
      · rw [hother j (hpresent j hj) hne'] at he'
        exact h.apart i j e (hpresent i hi) (hpresent j hj) he he'
  · intro e he
    obtain ⟨hused, hnot⟩ := h.reserved e he
    have hkept : e < s.nblocks → Outside w e := fun hlt => hout e ⟨hused hlt, hnot _ hp⟩
    refine ⟨fun hlt => (hkept hlt).1, fun i hi => ?_⟩
    by_cases hne : i = s.ino v
    · subst hne
      rw [hself]
      intro ho
      have hlt : e < s.nblocks := hnblocks ▸ (owns_held hev.mounted.sound ho).1
      exact (hkept hlt).2 ho
    · rw [hother i (hpresent i hi) hne]
      exact hnot i (hpresent i hi)
  · intro e hlt hused
    obtain hold | ho := hev.exact e hused
    · obtain hr | hpres | ⟨i, hi, ho⟩ := h.exact e hlt hold.1
      · exact .inl hr
      · exact .inr (.inl (hstay e hpres))
      · refine .inr (.inr ⟨i, hstay i hi, ?_⟩)
        have hne : i ≠ s.ino v := by
          rintro rfl
          exact hold.2 (hview ▸ ho)
        rwa [hother i hi hne]
    · exact .inr (.inr ⟨_, hstay _ hp, (hself e).mpr ho⟩)

/-- A bit of the map on the disk. -/
def mapBit (disk : ℕ → Block) (b : ℕ) : Bool :=
  (disk (SFS_FREEMAP_START + b / SFS_BITSPERBLOCK) (b % SFS_BITSPERBLOCK / 8)).toNat.testBit (b % 8)

/-- The map has a bit for every block, and lies before the first block of a file. -/
structure Laid (s : Volume) : Prop where
  bits : s.nbits = sbFreemapblocks s.nblocks * SFS_BITSPERBLOCK
  room : SFS_FREEMAP_START + sbFreemapblocks s.nblocks ≤ s.nblocks

/-- The map on the disk is the bitmap unless that is marked dirty. -/
def MapKept (s : Volume) : Prop := s.freemapdirty = false → ∀ b < s.nbits, mapBit s.disk b = s.freemap b

/-- What belongs to no file: the superblock stays, and the map is kept. -/
structure Fixed (s s' : Volume) : Prop where
  nbits : s'.nbits = s.nbits
  nblocks : s'.nblocks = s.nblocks
  dBlocks : s'.dBlocks = s.dBlocks
  super : 0 < s.nblocks → s'.disk SFS_SUPER_BLOCK = s.disk SFS_SUPER_BLOCK
  map : Laid s → MapKept s → MapKept s'

theorem Laid.congr (h : Laid s) (hnbits : s'.nbits = s.nbits) (hnblocks : s'.nblocks = s.nblocks) : Laid s' := by
  refine ⟨?_, ?_⟩
  · rw [hnbits, hnblocks]
    exact h.bits
  · rw [hnblocks]
    exact h.room

theorem Laid.reserved (h : Laid s) {b : ℕ} (hb : b < s.nbits) : SFS_FREEMAP_START + b / SFS_BITSPERBLOCK < s.nblocks ∧
    Reserved s.nblocks (SFS_FREEMAP_START + b / SFS_BITSPERBLOCK) := by
  have hlt : b / SFS_BITSPERBLOCK < sbFreemapblocks s.nblocks := by
    rw [h.bits] at hb
    exact Nat.div_lt_of_lt_mul (by rwa [Nat.mul_comm])
  have hroom := h.room
  exact ⟨by omega, .inr (.inl ⟨Nat.le_add_right _ _, by omega⟩)⟩

/-- Nothing of it is written, and the bitmap is marked dirty with its first change. -/
theorem Fixed.of_reserved (hnbits : s'.nbits = s.nbits) (hnblocks : s'.nblocks = s.nblocks) (hdBlocks : s'.dBlocks = s.dBlocks)
    (hreserved : ∀ e < s.nblocks, Reserved s.nblocks e → s'.disk e = s.disk e)
    (hbitmap : s'.freemapdirty = false → s.freemapdirty = false ∧ ∀ e < s.nbits, s'.freemap e = s.freemap e) : Fixed s s' := by
  refine ⟨hnbits, hnblocks, hdBlocks, fun hpos => hreserved _ hpos (.inl rfl), fun hl hk hclean b hb => ?_⟩
  obtain ⟨hclean', hmap⟩ := hbitmap hclean
  rw [hnbits] at hb
  obtain ⟨hlt, hr⟩ := hl.reserved hb
  rw [hmap b hb, ← hk hclean' b hb, mapBit, hreserved _ hlt hr]
  rfl

theorem Fixed.same (hfreemap : s'.freemap = s.freemap) (hdirty : s'.freemapdirty = s.freemapdirty) (hnbits : s'.nbits = s.nbits)
    (hnblocks : s'.nblocks = s.nblocks) (hdBlocks : s'.dBlocks = s.dBlocks) (hdisk : s'.disk = s.disk) : Fixed s s' :=
  .of_reserved hnbits hnblocks hdBlocks (fun e _ _ => congrFun hdisk e) fun h => ⟨hdirty ▸ h, fun e _ => congrFun hfreemap e⟩

theorem Fixed.refl (s : Volume) : Fixed s s := .same rfl rfl rfl rfl rfl rfl

theorem Fixed.trans {s'' : Volume} (h : Fixed s s') (h' : Fixed s' s'') : Fixed s s'' := by
  refine ⟨h'.nbits.trans h.nbits, h'.nblocks.trans h.nblocks, h'.dBlocks.trans h.dBlocks, fun hpos => ?_, fun hl hk => ?_⟩
  · rw [h'.super (by rwa [h.nblocks]), h.super hpos]
  · exact h'.map (hl.congr h.nbits h.nblocks) (h.map hl hk)

theorem store_clean (h : (s.store w).freemapdirty = false) : s.freemapdirty = false ∧ ∀ e < s.nbits, w.freemap e = s.freemap e := by
  have hflag : (s.freemapdirty || (List.range s.nbits).any fun e => w.freemap e != s.freemap e) = false := h
  simp only [Bool.or_eq_false_iff, List.any_eq_false, List.mem_range, bne_iff_ne, ne_eq, not_not] at hflag
  exact hflag

theorem Blocks.fixed (h : Blocks s) (ht : Tabled s) (hv : v ∈ s.vnodes) (hev : Evolves (s.view v) w) : Fixed s (s.keep v w) := by
  refine .of_reserved rfl rfl rfl (fun e he hr => ?_) store_clean
  have hout : Outside (s.view v) e := by
    rw [← fileOf_loaded ht hv]
    exact ⟨(h.reserved e hr).1 he, (h.reserved e hr).2 _ (present_loaded hv)⟩
  exact (hev.outside e hout).2

/-! Inodes that come and go. -/

/-- Files that stay are what they were; an inode that comes was a free block, one
that goes is one now, and neither has blocks. -/
structure Change (s s' : Volume) : Prop where
  nbits : s'.nbits = s.nbits
  nblocks : s'.nblocks = s.nblocks
  dBlocks : s'.dBlocks = s.dBlocks
  stay : ∀ i, Present s i → Present s' i → SameFile (fileOf s i) (fileOf s' i) ∧ (inodeOf s' i).size = (inodeOf s i).size
  come : ∀ i, ¬Present s i → Present s' i → (∀ e, ¬Owns (fileOf s' i) e) ∧ i < s.nblocks ∧ s.freemap i = false
  go : ∀ i, Present s i → ¬Present s' i → ∀ e, ¬Owns (fileOf s i) e
  freemap : ∀ e < s.nblocks, s'.freemap e = true ↔ (s.freemap e = true ∨ Present s' e) ∧ ¬(Present s e ∧ ¬Present s' e)
  past : ∀ e < s.nbits, s.nblocks ≤ e → s'.freemap e = s.freemap e

theorem Blocks.change (h : Blocks s) (hc : Change s s') : Blocks s' := by
  have howns : ∀ i, Present s' i → ∀ e, Owns (fileOf s' i) e → Present s i ∧ Owns (fileOf s i) e := by
    intro i hi e he
    by_cases hold : Present s i
    · exact ⟨hold, ((hc.stay i hold hi).1.owns e).mp he⟩
    · exact absurd he ((hc.come i hold hi).1 e)
  have hkeeps : ∀ i e, Present s i → Owns (fileOf s i) e → Present s' i ∧ Owns (fileOf s' i) e := by
    intro i e hi he
    by_cases hnew : Present s' i
    · exact ⟨hnew, ((hc.stay i hi hnew).1.owns e).mpr he⟩
    · exact absurd he (hc.go i hi hnew e)
  have hroot := h.files _ (present_root s)
  -- a block that a file has is not an inode, so that its bit does not change
  have hused : ∀ i e, Present s i → Owns (fileOf s i) e → s'.freemap e = true := by
    intro i e hi he
    have hheld := owns_held (h.files i hi) he
    exact (hc.freemap e hheld.1).mpr ⟨.inl hheld.2, fun hgone => h.outside i e hi hgone.1 he⟩
  have hvolume : ∀ d, d < s.nbits → s'.freemap d = false → 0 < d ∧ d < s.nblocks := by
    intro d hlt hfree
    by_cases hpast : s.nblocks ≤ d
    · rw [hc.past d hlt hpast] at hfree
      exact hroot.exist d ⟨hlt, hfree⟩
    · have hd : d < s.nblocks := Nat.lt_of_not_le hpast
      refine ⟨Nat.pos_of_ne_zero ?_, hd⟩
      rintro rfl
      have hreserved := h.reserved 0 (.inl rfl)
      have hbit := (hc.freemap 0 hd).mpr ⟨.inl (hreserved.1 hd), fun hgone => (h.inodes 0 hgone.1).2.2 (.inl rfl)⟩
      rw [hfree] at hbit
      cases hbit
  refine ⟨?_, ?_, ?_, ?_, ?_, ?_, ?_, ?_⟩
  · rw [hc.nblocks, hc.nbits]
    exact h.bits
  · rw [hc.nblocks]
    exact h.small
  · intro i hi
    have hdevice : s'.nblocks ≤ s'.dBlocks := by
      rw [hc.nblocks, hc.dBlocks]
      exact hroot.device
    have hwords : s'.dBlocks < 2^32 := by
      rw [hc.dBlocks]
      exact hroot.words
    have hexist : ∀ d, Free (fileOf s' i) d → 0 < d ∧ d < s'.nblocks := by
      rintro d ⟨hlt, hfree⟩
      rw [hc.nblocks]
      exact hvolume d (by rw [← hc.nbits]; exact hlt) hfree
    by_cases hold : Present s i
    · obtain ⟨hsame, hsize⟩ := hc.stay i hold hi
      exact hsame.sound (h.files i hold) hsize hc.nblocks hexist hdevice hwords fun e he => hused i e hold he
    · have hnone := (hc.come i hold hi).1
      have hempty : ∀ c, mapped (fileOf s' i) c = 0 := by
        intro c
        by_contra hne
        exact hnone _ (owns_mapped hne)
      refine ⟨(inodeOf s' i).size_lt, hexist, hdevice, hwords, fun c hne => absurd (hempty c) hne, fun hne => ?_, ?_, ?_⟩
      · exact absurd (owns_indirect hne) (hnone _)
      · exact fun c _ _ hne => absurd (hempty c) hne
      · exact fun c hne => absurd (hempty c) hne
  · intro i hi
    rw [hc.nblocks]
    by_cases hold : Present s i
    · obtain ⟨hlt, hbit, hnot⟩ := h.inodes i hold
      exact ⟨hlt, (hc.freemap i hlt).mpr ⟨.inr hi, fun hgone => hgone.2 hi⟩, hnot⟩
    · obtain ⟨-, hlt, hfree⟩ := hc.come i hold hi
      refine ⟨hlt, (hc.freemap i hlt).mpr ⟨.inr hi, fun hgone => hgone.2 hi⟩, fun hr => ?_⟩
      have hbit := (h.reserved i hr).1 hlt
      rw [hfree] at hbit
      cases hbit
  · intro i j hi hj ho
    obtain ⟨hold, ho⟩ := howns i hi j ho
    by_cases holdj : Present s j
    · exact h.outside i j hold holdj ho
    · have hbit := (owns_held (h.files i hold) ho).2
      have hfree := (hc.come j holdj hj).2.2
      exact absurd (hbit.symm.trans hfree) (by decide)
  · intro i j e hi hj he he'
    obtain ⟨hold, he⟩ := howns i hi e he
    obtain ⟨hold', he'⟩ := howns j hj e he'
    exact h.apart i j e hold hold' he he'
  · intro e he
    rw [hc.nblocks] at he ⊢
    refine ⟨fun hlt => (hc.freemap e hlt).mpr ⟨.inl ((h.reserved e he).1 hlt), fun hgone => (h.inodes e hgone.1).2.2 he⟩, ?_⟩
    intro i hi ho
    obtain ⟨hold, ho⟩ := howns i hi e ho
    exact (h.reserved e he).2 i hold ho
  · intro e hlt hbit
    rw [hc.nblocks] at hlt ⊢
    obtain ⟨hold | hnew, hstays⟩ := (hc.freemap e hlt).mp hbit
    · obtain hr | hp | ⟨i, hi, ho⟩ := h.exact e hlt hold
      · exact .inl hr
      · exact .inr (.inl (by by_contra hno; exact hstays ⟨hp, hno⟩))
      · exact .inr (.inr ⟨i, hkeeps i e hi ho⟩)
    · exact .inr (.inl hnew)

theorem dir_same (hsame : SameFile (fileOf s SFS_ROOTDIR_INO) (fileOf s' SFS_ROOTDIR_INO))
    (hsize : (inodeOf s' SFS_ROOTDIR_INO).size = (inodeOf s SFS_ROOTDIR_INO).size) : dir s' = dir s :=
  Reads.entries ⟨hsize, hsame.bytes⟩

theorem present_congr (hdir : dir s' = dir s) (hloaded : ∀ i, Loaded s' i ↔ Loaded s i) (i : ℕ) :
    Present s' i ↔ Present s i := by
  unfold Present
  rw [hdir, hloaded]

/-- The same inodes, and the same bitmap. -/
theorem Change.same (h : Blocks s) (hfreemap : ∀ e < s.nbits, s'.freemap e = s.freemap e) (hnbits : s'.nbits = s.nbits)
    (hnblocks : s'.nblocks = s.nblocks) (hdBlocks : s'.dBlocks = s.dBlocks) (hpresent : ∀ i, Present s' i ↔ Present s i)
    (hfiles : ∀ i, Present s i → SameFile (fileOf s i) (fileOf s' i) ∧ (inodeOf s' i).size = (inodeOf s i).size) :
    Change s s' := by
  refine ⟨hnbits, hnblocks, hdBlocks, fun i hi _ => hfiles i hi, ?_, ?_, ?_, fun e he _ => hfreemap e he⟩
  · exact fun i hno hi => absurd ((hpresent i).mp hi) hno
  · exact fun i hi hno => absurd ((hpresent i).mpr hi) hno
  · intro e he
    rw [hfreemap e (Nat.lt_of_lt_of_le he h.bits), hpresent]
    constructor
    · exact fun hbit => ⟨.inl hbit, fun hgone => hgone.2 hgone.1⟩
    · rintro ⟨hbit | hp, -⟩
      · exact hbit
      · exact (h.inodes e hp).2.1

end OS161.SfsVolume
