import OS161.FreshVolume
import OS161.SfsReclaim

/-!
# Writing a volume back

`sfs_sync` writes the inodes that are marked dirty, then the bitmap. Afterwards
the disk alone has all that there is to know about the volume.
-/

set_option autoImplicit false

namespace OS161.SfsVolume

open Function OS161.Vfs OS161.CopyInOut OS161.Sfs OS161.SfsTruncate OS161.SfsOwnership OS161.SfsDir
open OS161.Sfsck (SFS_SUPER_BLOCK SFS_ROOTDIR_INO SFS_FREEMAP_START Dinode)
open OS161.SfsckFreemap (sbFreemapblocks SFS_BITSPERBLOCK byteOf)
open OS161.FreshVolume (byteOf_bit)

/-- `sfs_sync_vnodes`, over the vnodes of the table. -/
def syncVnodes : List ℕ → Volume → Except Stop Volume
  | [], s => .ok s
  | v::vs, s =>
    match sfsSyncInode v s with
    | .error stop => .error stop
    | .ok s => syncVnodes vs s

/-- Block `j` of the data of a bitmap. -/
def mapBlock (map : ℕ → Bool) (j : ℕ) : Block := fun k => byteOf map (j*SFS_BITSPERBLOCK + k*8)

/-- `sfs_freemapio` for writing, with `left` blocks to go from `j` on. -/
def freemapWrite (map : ℕ → Bool) : (left j : ℕ) → World → Except Stop World
  | 0, _, w => .ok w
  | left+1, j, w =>
    match sfsWriteblock (SFS_FREEMAP_START+j) (mapBlock map j) w with
    | .error stop => .error stop
    | .ok w => freemapWrite map left (j+1) w

def syncFreemap (s : Volume) : Except Stop Volume :=
  if s.freemapdirty then
    match freemapWrite s.freemap (sbFreemapblocks s.nblocks) 0 s.bare with
    | .error stop => .error stop
    | .ok w => .ok { s with disk := w.disk, freemapdirty := false }
  else .ok s

/-- `sfs_sync`. Nothing ever marks the superblock dirty. -/
def sfsSync (s : Volume) : Except Stop Volume :=
  match syncVnodes s.vnodes s with
  | .error stop => .error stop
  | .ok s => syncFreemap s

variable {w w' : World} {s s' : Volume} {map : ℕ → Bool} {b e j left v : ℕ} {data : ℕ → Block}

/-- The bits of the bitmap are those of its blocks. -/
theorem mapBlock_bit (b : ℕ) (hdisk : data (SFS_FREEMAP_START + b / SFS_BITSPERBLOCK) = mapBlock map (b / SFS_BITSPERBLOCK)) :
    mapBit data b = map b := by
  have hy : b % 8 < 8 := Nat.mod_lt _ (by decide)
  rw [mapBit, hdisk, mapBlock, byteOf_bit _ _ hy]
  congr 1
  unfold SFS_BITSPERBLOCK
  omega

theorem freemapWrite_writes (map : ℕ → Bool) {left : ℕ} (hwords : w.dBlocks < 2^32)
    (hroom : SFS_FREEMAP_START + j + left ≤ w.dBlocks) :
    ∃ w', freemapWrite map left j w = .ok w' ∧ w' = { w with disk := w'.disk } ∧
      (∀ i, j ≤ i → i < j+left → w'.disk (SFS_FREEMAP_START+i) = mapBlock map i) ∧
      ∀ e, (∀ i, j ≤ i → i < j+left → e ≠ SFS_FREEMAP_START+i) → w'.disk e = w.disk e := by
  induction left generalizing j w with
  | zero => exact ⟨w, rfl, rfl, fun i hi hlt => absurd hlt (by omega), fun _ _ => rfl⟩
  | succ left ih =>
    have hwrite : sfsWriteblock (SFS_FREEMAP_START+j) (mapBlock map j) w =
        .ok { w with disk := update w.disk (SFS_FREEMAP_START+j) (mapBlock map j) } := if_neg (by omega)
    obtain ⟨w', hrun, hrest, hmap, hother⟩ := ih
      (w := { w with disk := update w.disk (SFS_FREEMAP_START+j) (mapBlock map j) }) (j := j+1) hwords (by dsimp only; omega)
    refine ⟨w', ?_, hrest, fun i hi hlt => ?_, fun e he => ?_⟩
    · simp only [freemapWrite, hwrite, hrun]
    · by_cases hij : i = j
      · subst hij
        rw [hother _ (by omega)]
        exact update_self ..
      · exact hmap i (by omega) (by omega)
    · rw [hother e fun i hi hlt => he i (by omega) (by omega)]
      exact update_of_ne (he j (Nat.le_refl j) (by omega)) _ _

/-! Writing blocks that no file has. -/

/-- Only reserved blocks change. -/
def Besides (s : Volume) (data : ℕ → Block) : Prop := ∀ e, ¬Reserved s.nblocks e → data e = s.disk e

theorem besides_inodeOf (h : Blocks s) (ht : Tabled s) (hd : Besides s data) {i : ℕ} (hi : Present s i) {f : Bool} :
    inodeOf { s with disk := data, freemapdirty := f } i = inodeOf s i := by
  by_cases hl : Loaded s i
  · obtain ⟨u, hu, rfl⟩ := hl
    have ht' : Tabled { s with disk := data, freemapdirty := f } := ht.congr rfl rfl rfl
    exact (inodeOf_loaded ht' hu).trans (inodeOf_loaded ht hu).symm
  · rw [inodeOf_unloaded hl, inodeOf_unloaded (s := { s with disk := data, freemapdirty := f }) hl]
    exact congrArg Dinode.ofBlock (hd i (h.inodes i hi).2.2)

theorem besides_same (h : Blocks s) (ht : Tabled s) (hd : Besides s data) {f : Bool} :
    SameInodes s { s with disk := data, freemapdirty := f } := by
  have hinode : ∀ i, Present s i → inodeOf { s with disk := data, freemapdirty := f } i = inodeOf s i :=
    fun i hi => besides_inodeOf h ht hd hi
  have hfile : ∀ i, Present s i → SameFile (fileOf s i) (fileOf { s with disk := data, freemapdirty := f } i) := by
    intro i hi
    have hsame : fileOf { s with disk := data, freemapdirty := f } i = { fileOf s i with disk := data } := by
      unfold fileOf
      rw [hinode i hi]
      rfl
    have hdisk : ∀ e, Owns (fileOf s i) e → data e = s.disk e :=
      fun e he => hd e fun hr => (h.reserved e hr).2 i hi he
    rw [hsame]
    exact ⟨mapped_same rfl (fun _ _ => rfl) fun hne => hdisk _ (owns_indirect hne), rfl, hdisk⟩
  have hroot := present_root s
  have hdir : dir { s with disk := data, freemapdirty := f } = dir s :=
    dir_same (hfile _ hroot) (congrArg Dinode.size (hinode _ hroot))
  refine ⟨fun _ _ => rfl, rfl, rfl, rfl, fun i => present_congr hdir (fun _ => Iff.rfl) i, hfile, fun i hi => ?_⟩
  rw [hinode i hi]
  exact .refl _

theorem besides_ready (h : Ready s) (hd : Besides s data) {f : Bool} : Ready { s with disk := data, freemapdirty := f } := by
  refine ⟨h.sound.equal (besides_same h.sound.blocks h.table hd) ?_ ?_, h.table.congr rfl rfl rfl⟩
  · exact fun i hi => congrArg Dinode.linkcount (besides_inodeOf h.sound.blocks h.table hd hi)
  · intro u hu hclean
    have hblock : data (s.ino u) = s.disk (s.ino u) := hd _ (h.sound.blocks.inodes _ (present_loaded hu)).2.2
    show Equal (.ofBlock (data (s.ino u))) (s.core u)
    rw [hblock]
    exact h.sound.clean u hu hclean

/-! The whole volume. -/

/-- What the volume is after it has been written back. -/
structure Written (s s' : Volume) : Prop where
  under : Under (fun _ => False) s none s'
  dir : dir s' = dir s
  clean : ∀ v ∈ s.vnodes, s'.dirty v = false

theorem sync_dirty (hrun : sfsSyncInode v s = .ok s') (u : ℕ) (hu : s.dirty u = false) : s'.dirty u = false := by
  unfold sfsSyncInode at hrun
  split at hrun
  · split at hrun
    · cases hrun
    · cases hrun
      show update s.dirty v false u = false
      by_cases huv : u = v
      · rw [huv, update_self]
      · rwa [update_of_ne huv]
  · cases hrun
    exact hu

theorem syncVnodes_writes (h : Ready s) (vs : List ℕ) (hvs : ∀ v ∈ vs, v ∈ s.vnodes) : ∃ s', syncVnodes vs s = .ok s' ∧
    Under (fun _ => False) s none s' ∧ dir s' = dir s ∧ (∀ v ∈ vs, s'.dirty v = false) ∧
      ∀ v, s.dirty v = false → s'.dirty v = false := by
  induction vs generalizing s with
  | nil => exact ⟨s, rfl, .start h, rfl, by simp, fun _ hv => hv⟩
  | cons v vs ih =>
    obtain ⟨s₁, hrun, hunder, hdir, hclean⟩ := sfsSync_syncs h (hvs v (by simp))
    have hkept := sync_dirty hrun
    obtain ⟨s', hrest, hunder', hdir', hclean', hkept'⟩ := ih hunder.ready fun u hu => (hunder.old u (hvs u (by simp [hu]))).1
    refine ⟨s', ?_, ?_, hdir'.trans hdir, ?_, fun u hu => hkept' u (hkept u hu)⟩
    · simp only [syncVnodes, hrun, hrest]
    · cases hunder'.takes with
      | nothing hvnodes hvnode hnext => exact hunder.next hunder'.ready hvnodes hvnode hnext hunder'.spares
    · intro u hu
      obtain rfl | hu := List.mem_cons.mp hu
      · exact hkept' u hclean
      · exact hclean' u hu

/-- The map on the disk becomes the bitmap. -/
theorem syncFreemap_writes (h : Ready s) (hl : Laid s) : ∃ s', syncFreemap s = .ok s' ∧
    Under (fun _ => False) s none s' ∧ dir s' = dir s ∧ s'.dirty = s.dirty ∧ s'.freemapdirty = false := by
  unfold syncFreemap
  cases hq : s.freemapdirty with
  | false => exact ⟨s, by simp, .start h, rfl, rfl, hq⟩
  | true =>
    have hroot := h.sound.blocks.files _ (present_root s)
    have hdevice : s.nblocks ≤ s.dBlocks := hroot.device
    have hroom := hl.room
    obtain ⟨w, hrun, hrest, hmap, hother⟩ := freemapWrite_writes s.freemap (w := s.bare) (j := 0)
      hroot.words (show _ + 0 + sbFreemapblocks s.nblocks ≤ s.dBlocks by omega)
    have hd : Besides s w.disk := by
      intro e he
      refine hother e fun i _ hi => ?_
      rintro rfl
      exact he (.inr (.inl ⟨Nat.le_add_right _ _, by omega⟩))
    have hready : Ready { s with disk := w.disk, freemapdirty := false } := besides_ready h hd
    have hsame : SameInodes s { s with disk := w.disk, freemapdirty := false } := besides_same h.sound.blocks h.table hd
    simp only [if_true, hrun]
    refine ⟨_, rfl, .next (.start h) hready rfl rfl rfl ?_, hsame.dir, rfl, rfl⟩
    refine ⟨fun i hi => (hsame.present i).mpr hi, fun i hi _ => (hsame.files i hi).bytes, fun i hi _ => (hsame.alike i hi).size,
      rfl, rfl, rfl, fun _ => ?_, fun _ _ _ b hb => ?_⟩
    · refine hother _ fun i _ _ => ?_
      unfold SFS_SUPER_BLOCK SFS_FREEMAP_START
      omega
    · have hlt : b / SFS_BITSPERBLOCK < 0 + sbFreemapblocks s.nblocks := by
        rw [hl.bits] at hb
        rw [Nat.zero_add]
        exact Nat.div_lt_of_lt_mul (by rwa [Nat.mul_comm])
      exact mapBlock_bit b (hmap _ (Nat.zero_le _) hlt)

theorem sfsSync_writes (h : Ready s) (hl : Laid s) : ∃ s', sfsSync s = .ok s' ∧ Written s s' ∧ s'.freemapdirty = false := by
  obtain ⟨s₁, hrun₁, hunder₁, hdir₁, hclean₁, -⟩ := syncVnodes_writes h s.vnodes fun _ hv => hv
  obtain ⟨s₂, hrun₂, hunder₂, hdir₂, hdirty₂, hflag⟩ := syncFreemap_writes hunder₁.ready
    (hl.congr hunder₁.spares.fixed.nbits hunder₁.spares.fixed.nblocks)
  refine ⟨s₂, ?_, ⟨?_, hdir₂.trans hdir₁, fun v hv => ?_⟩, hflag⟩
  · simp only [sfsSync, hrun₁, hrun₂]
  · cases hunder₂.takes with
    | nothing hvnodes hvnode hnext => exact hunder₁.next hunder₂.ready hvnodes hvnode hnext hunder₂.spares
  · rw [hdirty₂]
    exact hclean₁ v hv

end OS161.SfsVolume
