import OS161.SfsOperations

/-!
# Files and their end

Reading, writing and truncating one file leaves the others as they are. The file
of a vnode that has no reference left keeps its blocks as long as it has a name;
without one it is truncated, and its inode is free again.
-/

set_option autoImplicit false

namespace OS161.SfsVolume

open Function OS161.Vfs OS161.CopyInOut OS161.FirstFit OS161.Sfs OS161.SfsIo OS161.SfsTruncate OS161.SfsOwnership OS161.SfsDir
open OS161.References
open OS161.SharedDescriptor (Rw)
open OS161.Sfsck (SFS_ROOTDIR_INO SFS_TYPE_FILE SFS_TYPE_DIR SFS_NOINO Dinode Alike)

variable {w w' : World} {d d' : Dinode} {s s' s'' : Volume} {a b e f g i j k n v len : ℕ} {name : Name} {mem : Memory}
  {P : ℕ → Prop} {r : Option ℕ} {o : Outcome}

theorem Tabled.congr (h : Tabled s) (hvnodes : s'.vnodes = s.vnodes) (hvnode : s'.vnode = s.vnode)
    (hnext : s'.nextVnode = s.nextVnode) : Tabled s' := by
  have hino : s'.ino = s.ino := by
    unfold Volume.ino
    rw [hvnode]
  refine ⟨?_, ?_, ?_, ?_⟩
  · rw [hvnodes, hino]
    exact h.unique
  · rw [hvnodes, hvnode]
    exact h.live
  · rw [hvnodes, hnext]
    exact h.fresh
  · rw [hvnodes]
    exact h.nodup

theorem Sound.mark (h : Sound i a b s) (v : ℕ) : Sound i a b (s.markDirty v) ∧ dir (s.markDirty v) = dir s := by
  refine h.congr rfl rfl rfl rfl rfl (fun _ => rfl) (fun j hdir => present_congr hdir (fun _ => Iff.rfl) j) fun u hu hq => ?_
  have hq' : update s.dirty v true u = false := hq
  have huv : u ≠ v := by
    rintro rfl
    simp at hq'
  rw [update_of_ne huv] at hq'
  exact h.clean u hu hq'

theorem mark_spares (hdir : dir (s.markDirty v) = dir s) : Spares P s (s.markDirty v) :=
  ⟨fun j hj => (present_congr hdir (fun _ => Iff.rfl) j).mpr hj, fun _ _ _ _ => rfl, fun _ _ _ => rfl,
    .same rfl rfl rfl rfl rfl rfl⟩

/-- The file of a vnode, after an operation on it that is not the directory. -/
structure Alters (v : ℕ) (w : World) (s s' : Volume) : Prop where
  ready : Ready s'
  dir : dir s' = dir s
  spares : Spares (fun j => j = s.ino v) s s'
  self : SameFile w (fileOf s' (s.ino v))
  size : (fileOf s' (s.ino v)).size = w.size

theorem Ready.view (h : Ready s) (hv : v ∈ s.vnodes) : Mounted (s.view v) := by
  rw [← fileOf_loaded h.table hv]
  exact h.sound.blocks.mounted (present_loaded hv)

theorem Ready.alter (h : Ready s) (hv : v ∈ s.vnodes) (hne : s.ino v ≠ SFS_ROOTDIR_INO) (hev : Evolves (s.view v) w) :
    Alters v w s (s.keep v w) := by
  obtain ⟨hsound, hdir⟩ := h.sound.keepFile h.table hv hev fun heq => absurd heq hne
  have hkept := h.sound.blocks.kept h.table hv hev
  refine ⟨⟨hsound, h.table.keep v w⟩, hdir, ?_, hkept.self, hkept.size⟩
  exact keep_spares h.sound.blocks h.table hv hev fun j hj => (present_congr hdir (fun _ => Iff.rfl) j).mpr hj

/-- Reading changes nothing, writing no other file. -/
structure Transfers (v : ℕ) (u : Uio) (s : Volume) (o : Outcome) (s' : Volume) : Prop where
  drop : o.drop = none
  none : ∀ r, o.result = .ok r → r = none
  files : files s' = files s
  read : u.rw = .read → s' = s

theorem sfsRw_transfers (h : Ready s) (hv : v ∈ s.vnodes) (hne : s.ino v ≠ SFS_ROOTDIR_INO) (u : Uio) (m : UserMemory) :
    ∃ o s', sfsRw v u m s = .ok (o, s') ∧ Under (fun j => j = s.ino v) s o.vnode s' ∧ Transfers v u s o s' := by
  have hm := (h.view hv).sound
  have hback : Evolves (s.view v) (s.file (s.core v) m) := (Evolves.refl (h.view hv)).withUser m
  obtain ⟨e, u', w, hrun, hev, hread⟩ := sfsIo_evolves hback.mounted (show SfsOwnership.Small _ from h.sound.blocks.small) u
  have halter := h.alter hv hne (hback.trans hev)
  have hunder : Under (fun j => j = s.ino v) s none (s.keep v w) :=
    .next (.start h) halter.ready rfl rfl rfl halter.spares
  have hsame : u.rw = .read → s.keep v w = s := by
    intro hr
    obtain ⟨m', rfl⟩ := hread hr
    exact keep_view s v
  simp only [sfsRw, hrun]
  cases e with
  | some e => exact ⟨_, _, rfl, hunder, rfl, by rintro _ ⟨⟩, files_dir halter.dir, hsame⟩
  | none => exact ⟨_, _, rfl, hunder, rfl, by rintro _ ⟨⟩; rfl, files_dir halter.dir, hsame⟩

/-- Once it is truncated to nothing, a file has no blocks. -/
theorem itrunc_empties (h : Mounted w) : ∃ w', sfsItrunc 0 w = .ok w' ∧ Evolves w w' ∧ ∀ e, ¬Owns w' e := by
  obtain ⟨w₁, hrun, hdiscards, hind⟩ := sfsItrunc_cuts h 0
  obtain ⟨w₂, hrun₂, hev, -, -⟩ := sfsItrunc_evolves h 0
  rw [hrun] at hrun₂
  cases hrun₂
  have hpast : ∀ c, Past (blocksOf 0 % 2^32) c := by
    intro c
    have hzero : blocksOf 0 % 2^32 = 0 := by decide
    rw [hzero]
    unfold Past
    split
    · exact Nat.zero_le c
    · next hc =>
      unfold SFS_NDIRECT at hc
      omega
  have hnone : ∀ c, mapped w₁ c = 0 := fun c => hdiscards.gone c (hpast c)
  have hindirect : w₁.indirect = 0 := hind.none.mpr (.inr ⟨by decide, fun c _ => hnone c⟩)
  refine ⟨_, hrun, hev, ?_⟩
  rintro e ⟨hne, ⟨c, hc⟩ | hi⟩
  · exact hne (hc.symm.trans (hnone c))
  · exact hne (hi.symm.trans hindirect)

structure Truncates (v len : ℕ) (s s' : Volume) : Prop where
  under : Under (fun j => j = s.ino v) s none s'
  files : files s' = files s
  size : (fileOf s' (s.ino v)).size = len % 2^32

theorem sfsTruncate_truncates (h : Ready s) (hv : v ∈ s.vnodes) (hne : s.ino v ≠ SFS_ROOTDIR_INO) (len : ℕ) :
    ∃ s', sfsTruncate v len s = .ok s' ∧ Truncates v len s s' := by
  obtain ⟨w, hrun, hev, -, hsize⟩ := sfsItrunc_evolves (h.view hv) len
  have halter := h.alter hv hne hev
  obtain ⟨hsound, hdir⟩ := halter.ready.sound.mark v
  have hready : Ready ((s.keep v w).markDirty v) := ⟨hsound, halter.ready.table.congr rfl rfl rfl⟩
  simp only [sfsTruncate, hrun]
  refine ⟨_, rfl, ?_, ?_, halter.size.trans hsize⟩
  · exact .next (.start h) hready rfl rfl rfl (halter.spares.trans (mark_spares hdir))
  · rw [files_dir hdir, files_dir halter.dir]

theorem sync_spares (hs : Synced v s s') : Spares P s s' :=
  ⟨fun j hj => (hs.same.present j).mpr hj, fun j hj _ => (hs.same.files j hj).bytes, fun j hj _ => (hs.same.alike j hj).size, hs.fixed⟩

theorem sfsSync_syncs (h : Ready s) (hv : v ∈ s.vnodes) : ∃ s', sfsSyncInode v s = .ok s' ∧
    Under (fun _ => False) s none s' ∧ dir s' = dir s ∧ s'.dirty v = false := by
  obtain ⟨s', hrun, hsound, hs⟩ := h.sound.sync h.table hv
  have hready : Ready s' := ⟨hsound, h.table.congr hs.vnodes hs.vnode hs.nextVnode⟩
  exact ⟨s', hrun, .next (.start h) hready hs.vnodes hs.vnode hs.nextVnode (sync_spares hs), hs.same.dir, hs.clean⟩

theorem sfsLookparent_takes (h : Ready s) (hv : v ∈ s.vnodes) (path : Name) (buflen : ℕ) :
    ∃ o s', sfsLookparent v path buflen s = .ok (o, s') ∧ Under (fun _ => False) s o.vnode s' ∧ files s' = files s ∧
      (∀ r, o.result = .ok r → r = some v) := by
  unfold sfsLookparent
  split
  · exact ⟨_, _, rfl, .start h, rfl, by rintro r ⟨⟩⟩
  · split
    · exact ⟨_, _, rfl, .start h, rfl, by rintro r ⟨⟩⟩
    · have hl := h.loading (present_loaded hv) (.found v hv rfl)
      exact ⟨_, _, rfl, .load hl, files_dir hl.dir, by rintro r ⟨⟩; rfl⟩

/-! The end of a vnode. -/

/-- `sfs_reclaim` takes a vnode out of the table, and its file goes with the last name. -/
structure Erased (v : ℕ) (s s' : Volume) : Prop where
  ready : Ready s'
  vnodes : s'.vnodes = s.vnodes.erase v
  vnode : s'.vnode = update s.vnode v { s.vnode v with live := false }
  nextVnode : s'.nextVnode = s.nextVnode
  files : files s' = files s
  present : ∀ j, Present s' j ↔ Present s j ∧ (j = s.ino v → (s.core v).linkcount ≠ 0)
  bytes : ∀ j, Present s' j → ∀ x, byteAt (fileOf s' j) x = byteAt (fileOf s j) x
  size : ∀ j, Present s' j → (inodeOf s' j).size = (inodeOf s j).size
  freed : (s.core v).linkcount = 0 → s'.freemap (s.ino v) = false
  fixed : Fixed s s'

/-- A file with names is written back. -/
theorem erase_linked (h : Ready s) (hv : v ∈ s.vnodes) (hone : (s.vnode v).refcount = 1) (hlinked : (s.core v).linkcount ≠ 0) :
    ∃ s', sfsErase v s = .ok s' ∧ Erased v s s' := by
  obtain ⟨s₁, hsync, hsound, hs⟩ := h.sound.sync h.table hv
  have ht := h.table.congr hs.vnodes hs.vnode hs.nextVnode
  have hcore : s₁.core v = s.core v := congrFun hs.core v
  have hmem : v ∈ s₁.vnodes := hs.vnodes ▸ hv
  have hcount : ¬(s₁.vnode v).refcount ≠ 1 := fun hno => hno (by rw [hs.vnode]; exact hone)
  obtain ⟨hsound₂, hsame⟩ := hsound.forget ht hmem hs.clean (hcore ▸ hlinked)
  have hready : Ready (s₁.forget v s₁.freemap) := ⟨hsound₂, ht.forget v _⟩
  refine ⟨s₁.forget v s₁.freemap, ?_, hready, ?_, ?_, hs.nextVnode, ?_, ?_, ?_, ?_, ?_, hs.fixed.trans (forget_fixed v _ s₁)⟩
  · simp only [sfsErase, if_neg hlinked, hsync, hcore, if_neg (not_not_intro hmem), if_neg hcount]
    rfl
  · exact congrArg (·.erase v) hs.vnodes
  · show update s₁.vnode v { s₁.vnode v with live := false } = _
    rw [hs.vnode]
  · rw [files_dir hsame.dir, files_dir hs.same.dir]
  · intro j
    rw [hsame.present, hs.same.present]
    exact ⟨fun hj => ⟨hj, fun _ => hlinked⟩, And.left⟩
  · intro j hj x
    have hj₁ := (hsame.present j).mp hj
    rw [(hsame.files j hj₁).bytes, (hs.same.files j ((hs.same.present j).mp hj₁)).bytes]
  · intro j hj
    have hj₁ := (hsame.present j).mp hj
    rw [(hsame.alike j hj₁).size, (hs.same.alike j ((hs.same.present j).mp hj₁)).size]
  · exact fun hzero => absurd hzero hlinked

/-- A file without names is truncated, and its inode given back. -/
theorem erase_unnamed (h : Ready s) (hv : v ∈ s.vnodes) (hone : (s.vnode v).refcount = 1) (hcount : (s.core v).linkcount = 0) :
    ∃ s', sfsErase v s = .ok s' ∧ Erased v s s' := by
  have hroot := (h.sound.unnamed h.table hv hcount).1
  obtain ⟨w, htrunc, hev, hempty⟩ := itrunc_empties (h.view hv)
  have halter := h.alter hv hroot hev
  obtain ⟨hsound₁, hdir₁⟩ := halter.ready.sound.mark v
  generalize hs₁ : (s.keep v w).markDirty v = s₁ at hsound₁ hdir₁
  have htruncate : sfsTruncate v 0 s = .ok s₁ := by
    simp only [sfsTruncate, htrunc, hs₁]
  have ht₁ : Tabled s₁ := by
    subst hs₁
    exact h.table.congr rfl rfl rfl
  have hmem₁ : v ∈ s₁.vnodes := by
    subst hs₁
    exact hv
  have hcount₁ : (s₁.core v).linkcount = 0 := by
    subst hs₁
    show (update s.core v (ofFile w (s.core v)) v).linkcount = 0
    rw [update_self]
    exact hcount
  have hvnode₁ : s₁.vnode = s.vnode := by
    subst hs₁
    rfl
  have hino₁ : s₁.ino v = s.ino v := congrArg (fun x => (x v).number) hvnode₁
  have hspares₁ : Spares (fun j => j = s.ino v) s s₁ := by
    subst hs₁
    exact halter.spares.trans (mark_spares hdir₁)
  have hempty₁ : ∀ e, ¬Owns (fileOf s₁ (s.ino v)) e := by
    subst hs₁
    exact fun e ho => hempty e ((halter.self.owns e).mp ho)
  have hback₁ : ∀ j, Present s₁ j → Present s j := by
    subst hs₁
    exact fun j hj => (present_congr (hdir₁.trans halter.dir) (fun _ => Iff.rfl) j).mp hj
  obtain ⟨s₂, hsync, hsound₂, hs⟩ := hsound₁.sync ht₁ hmem₁
  have ht₂ := ht₁.congr hs.vnodes hs.vnode hs.nextVnode
  have hmem₂ : v ∈ s₂.vnodes := hs.vnodes ▸ hmem₁
  have hcount₂ : (s₂.core v).linkcount = 0 := by
    rw [hs.core]
    exact hcount₁
  have hino₂ : s₂.ino v = s.ino v := (congrArg (fun x => (x v).number) hs.vnode).trans hino₁
  have hempty₂ : ∀ e, ¬Owns (s₂.view v) e := by
    intro e ho
    rw [← fileOf_loaded ht₂ hmem₂, hino₂] at ho
    exact hempty₁ e (((hs.same.files _ (hino₁ ▸ present_loaded hmem₁)).owns e).mp ho)
  obtain ⟨hsound₃, hdis⟩ := hsound₂.discard ht₂ hmem₂ hcount₂ hempty₂
  have hone₂ : ¬(s₂.vnode v).refcount ≠ 1 := fun hno => hno (by rw [hs.vnode, hvnode₁]; exact hone)
  have hheld := hsound₂.held hmem₂
  have hfree : sfsBfree (s₂.ino v) s₂.bare = .ok { s₂.bare with freemap := update s₂.freemap (s₂.ino v) false } := by
    refine if_neg ?_
    rintro (hle | hbit)
    · exact absurd (Nat.lt_of_lt_of_le hheld.1 hsound₂.blocks.bits) (Nat.not_lt.mpr hle)
    · exact absurd (hheld.2.symm.trans hbit) (by decide)
  refine ⟨s₂.forget v (update s₂.freemap (s₂.ino v) false), ?_, ⟨hsound₃, ht₂.forget v _⟩, ?_, ?_, ?_, ?_, ?_, ?_, ?_, ?_,
    (hspares₁.fixed.trans hs.fixed).trans (forget_fixed v _ s₂)⟩
  · simp only [sfsErase, if_pos hcount, htruncate, hsync, if_pos hcount₂, hfree, if_neg (not_not_intro hmem₂), if_neg hone₂]
    rfl
  · show s₂.vnodes.erase v = _
    rw [hs.vnodes, ← hs₁]
    rfl
  · show update s₂.vnode v { s₂.vnode v with live := false } = _
    rw [hs.vnode, hvnode₁]
  · show s₂.nextVnode = _
    rw [hs.nextVnode, ← hs₁]
    rfl
  · rw [files_dir hdis.dir, files_dir hs.same.dir, ← hs₁, files_dir (hs₁ ▸ hdir₁), files_dir halter.dir]
  · intro j
    rw [hdis.present, hs.same.present, hino₂]
    constructor
    · exact fun hj => ⟨hback₁ j hj.1, fun heq => absurd heq hj.2⟩
    · exact fun hj => ⟨hspares₁.present j hj.1, fun heq => hj.2 heq hcount⟩
  · intro j hj x
    obtain ⟨hj₂, hne⟩ := (hdis.present j).mp hj
    have hj₁ := (hs.same.present j).mp hj₂
    rw [(hdis.files j hne).bytes, (hs.same.files j hj₁).bytes]
    exact hspares₁.bytes j (hback₁ j hj₁) (hino₂ ▸ hne) x
  · intro j hj
    obtain ⟨hj₂, hne⟩ := (hdis.present j).mp hj
    have hj₁ := (hs.same.present j).mp hj₂
    rw [hdis.inodes j hne, (hs.same.alike j hj₁).size]
    exact hspares₁.size j (hback₁ j hj₁) (hino₂ ▸ hne)
  · intro _
    show update s₂.freemap (s₂.ino v) false (s.ino v) = false
    rw [hino₂, update_self]

theorem sfsErase_erases (h : Ready s) (hv : v ∈ s.vnodes) (hone : (s.vnode v).refcount = 1) :
    ∃ s', sfsErase v s = .ok s' ∧ Erased v s s' := by
  by_cases hcount : (s.core v).linkcount = 0
  · exact erase_unnamed h hv hone hcount
  · exact erase_linked h hv hone hcount

end OS161.SfsVolume
