import OS161.SfsNames

/-!
# Inodes that are made, written back and given up

A new inode is a block of zeros. The vnode of an inode that has names goes when
the inode on the disk is the same; without names the file goes too, with its
blocks and the block of the inode.
-/

set_option autoImplicit false

namespace OS161.SfsVolume

open Function OS161.Vfs OS161.CopyInOut OS161.FirstFit OS161.Sfs OS161.SfsTruncate OS161.SfsOwnership OS161.SfsDir OS161.References
open OS161.Sfsck (SFS_ROOTDIR_INO SFS_TYPE_FILE SFS_TYPE_DIR SFS_NOINO Dinode Alike ofBlock_toBlock half_bytes)

variable {w w' : World} {d d' : Dinode} {s s' : Volume} {a b e g i j k n v : ℕ} {name : Name} {data : Block}

theorem ofBlock_written (d : Dinode) : Equal (.ofBlock d.toBlock) d := ⟨ofBlock_toBlock d, half_bytes d.linkcount_lt⟩

/-! A block that no file has is written. -/

/-- The block is nobody's, or that of an inode that is in memory. -/
structure Idle (s : Volume) (e : ℕ) : Prop where
  unowned : ∀ j, Present s j → ¬Owns (fileOf s j) e
  unread : ∀ j, Present s j → ¬Loaded s j → j ≠ e

theorem rewrite_inodeOf (ht : Tabled s) (hidle : Idle s e) (hj : Present s j) {f : Bool} {q : ℕ → Bool} :
    inodeOf { s with freemapdirty := f, disk := update s.disk e data, dirty := q } j = inodeOf s j := by
  have ht' : Tabled { s with freemapdirty := f, disk := update s.disk e data, dirty := q } := ⟨ht.unique, ht.live, ht.fresh, ht.nodup⟩
  by_cases hl : Loaded s j
  · obtain ⟨u, hu, rfl⟩ := hl
    exact (inodeOf_loaded ht' hu).trans (inodeOf_loaded ht hu).symm
  · have hl' : ¬Loaded { s with freemapdirty := f, disk := update s.disk e data, dirty := q } j := hl
    rw [inodeOf_unloaded hl, inodeOf_unloaded hl']
    exact congrArg Dinode.ofBlock (update_of_ne (hidle.unread j hj hl) _ _)

theorem rewrite_same (ht : Tabled s) (hidle : Idle s e) {f : Bool} {q : ℕ → Bool} :
    SameInodes s { s with freemapdirty := f, disk := update s.disk e data, dirty := q } := by
  have hinode : ∀ j, Present s j → inodeOf { s with freemapdirty := f, disk := update s.disk e data, dirty := q } j = inodeOf s j :=
    fun j hj => rewrite_inodeOf ht hidle hj
  have hfile : ∀ j, Present s j → SameFile (fileOf s j) (fileOf { s with freemapdirty := f, disk := update s.disk e data, dirty := q } j) := by
    intro j hj
    have hdisk : ∀ c, Owns (fileOf s j) c → update s.disk e data c = s.disk c := by
      intro c hc
      refine update_of_ne ?_ _ _
      rintro rfl
      exact hidle.unowned j hj hc
    have hsame : fileOf { s with freemapdirty := f, disk := update s.disk e data, dirty := q } j =
        { fileOf s j with disk := update s.disk e data } := by
      unfold fileOf
      rw [hinode j hj]
      rfl
    rw [hsame]
    exact ⟨mapped_same rfl (fun _ _ => rfl) fun hi => hdisk _ (owns_indirect hi), rfl, hdisk⟩
  have hdir : dir { s with freemapdirty := f, disk := update s.disk e data, dirty := q } = dir s :=
    dir_same (hfile _ (present_root s)) (congrArg Dinode.size (hinode _ (present_root s)))
  refine ⟨fun _ _ => rfl, rfl, rfl, rfl, fun j => present_congr hdir (fun _ => Iff.rfl) j, hfile, fun j hj => ?_⟩
  rw [hinode j hj]
  exact .refl _

theorem Sound.rewrite (h : Sound i a b s) (ht : Tabled s) (hidle : Idle s e) {f : Bool} {q : ℕ → Bool}
    (hclean : Clean { s with freemapdirty := f, disk := update s.disk e data, dirty := q }) :
    Sound i a b { s with freemapdirty := f, disk := update s.disk e data, dirty := q } :=
  h.equal (rewrite_same ht hidle) (fun _ hj => congrArg Dinode.linkcount (rewrite_inodeOf ht hidle hj)) hclean

theorem rewrite_fixed (hr : ¬Reserved s.nblocks e) {f : Bool} {q : ℕ → Bool}
    (hf : f = false → s.freemapdirty = false ∧ ∀ c < s.nbits, s.freemap c = s.freemap c) :
    Fixed s { s with freemapdirty := f, disk := update s.disk e data, dirty := q } := by
  refine .of_reserved rfl rfl rfl (fun c _ hc => update_of_ne ?_ _ _) hf
  rintro rfl
  exact hr hc

/-- What the invariant says of the block of an inode in memory. -/
theorem Sound.idle_inode (h : Sound i a b s) (hv : v ∈ s.vnodes) : Idle s (s.ino v) := by
  refine ⟨fun j hj => h.blocks.outside j _ hj (present_loaded hv), ?_⟩
  rintro j - hn rfl
  exact hn ⟨v, hv, rfl⟩

/-- `sfs_sync_inode` leaves the inode on the disk as it is in memory. -/
structure Synced (v : ℕ) (s s' : Volume) : Prop where
  clean : s'.dirty v = false
  vnodes : s'.vnodes = s.vnodes
  vnode : s'.vnode = s.vnode
  nextVnode : s'.nextVnode = s.nextVnode
  core : s'.core = s.core
  same : SameInodes s s'
  inodes : ∀ j, Present s j → inodeOf s' j = inodeOf s j
  fixed : Fixed s s'

theorem SameInodes.refl (s : Volume) : SameInodes s s :=
  ⟨fun _ _ => rfl, rfl, rfl, rfl, fun _ => Iff.rfl, fun _ _ => sameFile_refl _, fun _ _ => .refl _⟩

theorem Sound.sync (h : Sound i a b s) (ht : Tabled s) (hv : v ∈ s.vnodes) :
    ∃ s', sfsSyncInode v s = .ok s' ∧ Sound i a b s' ∧ Synced v s s' := by
  unfold sfsSyncInode
  cases hdirty : s.dirty v with
  | false => exact ⟨s, by simp, h, hdirty, rfl, rfl, rfl, rfl, .refl s, fun _ _ => rfl, .refl s⟩
  | true =>
    have hlt := (h.blocks.inodes _ (present_loaded hv)).1
    have hroot := h.blocks.files _ (present_root s)
    have hwrite : sfsWriteblock (s.ino v) (s.core v).toBlock s.bare =
        .ok { s.bare with disk := update s.bare.disk (s.ino v) (s.core v).toBlock } := by
      refine if_neg ?_
      have hdevice : s.nblocks ≤ s.dBlocks := hroot.device
      have hwords : s.dBlocks < 2^32 := hroot.words
      show ¬s.dBlocks < _
      omega
    rw [hwrite]
    have hidle := h.idle_inode hv
    dsimp only
    rw [store_same rfl]
    refine ⟨_, rfl, h.rewrite ht hidle ?_, update_self .., rfl, rfl, rfl, rfl, rewrite_same ht hidle,
      fun j hj => rewrite_inodeOf ht hidle hj, rewrite_fixed (h.blocks.inodes _ (present_loaded hv)).2.2 fun hq => ⟨hq, fun _ _ => rfl⟩⟩
    intro u hu hq
    show Equal (.ofBlock (update s.disk (s.ino v) (s.core v).toBlock (s.ino u))) (s.core u)
    by_cases huv : u = v
    · subst huv
      rw [update_self]
      exact ofBlock_written _
    · have hq' : update s.dirty v false u = false := hq
      rw [update_of_ne huv] at hq'
      rw [update_of_ne fun heq => huv (ht.unique u hu v hv heq)]
      exact h.clean u hu hq'

/-! The vnode goes out of the table. -/

/-- The volume without vnode `v`, and with a bitmap. -/
def Volume.forget (v : ℕ) (freemap : ℕ → Bool) (s : Volume) : Volume := { s.store { s.bare with freemap := freemap } with
  vnodes := s.vnodes.erase v
  vnode := update s.vnode v { s.vnode v with live := false } }

variable {freemap : ℕ → Bool}

theorem forget_ino (v u : ℕ) (freemap : ℕ → Bool) (s : Volume) : (s.forget v freemap).ino u = s.ino u := by
  show (update s.vnode v { s.vnode v with live := false } u).number = (s.vnode u).number
  by_cases hu : u = v
  · subst hu
    rw [update_self]
  · rw [update_of_ne hu]

theorem forget_mem (ht : Tabled s) {u : ℕ} : u ∈ (s.forget v freemap).vnodes ↔ u ∈ s.vnodes ∧ u ≠ v := by
  show u ∈ s.vnodes.erase v ↔ _
  rw [ht.nodup.mem_erase_iff, and_comm]

theorem Tabled.forget (h : Tabled s) (v : ℕ) (freemap : ℕ → Bool) : Tabled (s.forget v freemap) := by
  refine ⟨?_, ?_, ?_, h.nodup.erase v⟩
  · intro u hu x hx
    rw [forget_ino, forget_ino]
    exact h.unique u ((forget_mem h).mp hu).1 x ((forget_mem h).mp hx).1
  · intro u hu
    obtain ⟨hu, hne⟩ := (forget_mem h).mp hu
    show (update s.vnode v { s.vnode v with live := false } u).live = true
    rw [update_of_ne hne]
    exact h.live u hu
  · intro u hu
    exact h.fresh u ((forget_mem h).mp hu).1

theorem forget_loaded (h : Tabled s) (hv : v ∈ s.vnodes) : Loaded (s.forget v freemap) j ↔ Loaded s j ∧ j ≠ s.ino v := by
  constructor
  · rintro ⟨u, hu, rfl⟩
    obtain ⟨hu, hne⟩ := (forget_mem h).mp hu
    rw [forget_ino]
    exact ⟨⟨u, hu, rfl⟩, fun heq => hne (h.unique u hu v hv heq)⟩
  · rintro ⟨⟨u, hu, rfl⟩, hne⟩
    refine ⟨u, (forget_mem h).mpr ⟨hu, ?_⟩, forget_ino ..⟩
    rintro rfl
    exact hne rfl

theorem forget_inodeOf (h : Tabled s) (hv : v ∈ s.vnodes) (j : ℕ) :
    inodeOf (s.forget v freemap) j = if j = s.ino v then .ofBlock (s.disk j) else inodeOf s j := by
  by_cases hl : Loaded (s.forget v freemap) j
  · obtain ⟨hold, hne⟩ := (forget_loaded h hv).mp hl
    obtain ⟨u, hu, rfl⟩ := hl
    have hloaded := inodeOf_loaded (h.forget v freemap) hu
    rw [if_neg hne, hloaded, forget_ino, inodeOf_loaded h ((forget_mem h).mp hu).1]
    rfl
  · rw [inodeOf_unloaded hl]
    split
    · rfl
    · next hne => rw [inodeOf_unloaded fun hold => hl ((forget_loaded h hv).mpr ⟨hold, hne⟩)]; rfl

theorem forget_fixed (v : ℕ) (freemap : ℕ → Bool) (s : Volume) : Fixed s (s.forget v freemap) :=
  .of_reserved rfl rfl rfl (fun _ _ _ => rfl) store_clean

theorem Clean.forget (h : Clean s) (ht : Tabled s) : Clean (s.forget v freemap) := by
  intro u hu hclean
  rw [forget_ino]
  exact h u ((forget_mem ht).mp hu).1 hclean

/-- An inode that has names stays on the disk. -/
theorem Sound.forget (h : Sound i 0 0 s) (ht : Tabled s) (hv : v ∈ s.vnodes) (hclean : s.dirty v = false)
    (hlinked : (s.core v).linkcount ≠ 0) :
    Sound i 0 0 (s.forget v s.freemap) ∧ SameInodes s (s.forget v s.freemap) := by
  have hinode : ∀ j, inodeOf (s.forget v s.freemap) j = if j = s.ino v then .ofBlock (s.disk j) else inodeOf s j :=
    forget_inodeOf ht hv
  have hself : Equal (.ofBlock (s.disk (s.ino v))) (inodeOf s (s.ino v)) := by
    rw [inodeOf_loaded ht hv]
    exact h.clean v hv hclean
  have hequal : ∀ j, Equal (inodeOf (s.forget v s.freemap) j) (inodeOf s j) := by
    intro j
    rw [hinode]
    split
    · next hj =>
      subst hj
      exact hself
    · exact .refl _
  have hfile : ∀ j, SameFile (fileOf s j) (fileOf (s.forget v s.freemap) j) := by
    intro j
    have hj := (hequal j).alike
    exact ⟨mapped_same hj.indirect hj.direct fun _ => rfl, hj.indirect, fun _ _ => rfl⟩
  have hdir : dir (s.forget v s.freemap) = dir s := dir_same (hfile _) (hequal _).alike.size
  have hpresent : ∀ j, Present (s.forget v s.freemap) j ↔ Present s j := by
    intro j
    unfold Present
    rw [hdir, forget_loaded ht hv]
    constructor
    · exact fun hj => hj.imp_right (Or.imp_left And.left)
    · rintro (hj | hj | hj)
      · exact .inl hj
      · by_cases hne : j = s.ino v
        · subst hne
          by_cases hroot : s.ino v = SFS_ROOTDIR_INO
          · exact .inl hroot
          · have hcount := h.names.exact (present_loaded hv) hroot
            rw [inodeOf_loaded ht hv] at hcount
            exact .inr (.inr (links_named (hcount ▸ hlinked)))
        · exact .inr (.inl ⟨hj, hne⟩)
      · exact .inr (.inr hj)
  have hsame : SameInodes s (s.forget v s.freemap) :=
    ⟨fun _ _ => rfl, rfl, rfl, rfl, hpresent, fun j _ => hfile j, fun j _ => (hequal j).alike⟩
  exact ⟨h.equal hsame (fun j _ => (hequal j).linkcount) (h.clean.forget ht), hsame⟩

/-- What is left of the other files once one is discarded. -/
structure Discarded (v : ℕ) (s s' : Volume) : Prop where
  dir : dir s' = dir s
  present : ∀ j, Present s' j ↔ Present s j ∧ j ≠ s.ino v
  inodes : ∀ j, j ≠ s.ino v → inodeOf s' j = inodeOf s j
  files : ∀ j, j ≠ s.ino v → SameFile (fileOf s j) (fileOf s' j)

/-- A vnode with link count zero is not the root's, and nothing names it. -/
theorem Sound.unnamed (h : Sound i 0 0 s) (ht : Tabled s) (hv : v ∈ s.vnodes) (hcount : (s.core v).linkcount = 0) :
    s.ino v ≠ SFS_ROOTDIR_INO ∧ ∀ k n, dir s k ≠ some (n, s.ino v) := by
  have hroot : s.ino v ≠ SFS_ROOTDIR_INO := by
    intro heq
    apply h.names.rootLinked
    rw [← heq, inodeOf_loaded ht hv]
    exact hcount
  refine ⟨hroot, fun k n hk => ?_⟩
  have hlinks := h.names.exact (present_loaded hv) hroot
  rw [inodeOf_loaded ht hv, hcount] at hlinks
  have hpos := links_pos (dir_lt h.names.listing (by simp [hk])) hk
  omega

/-- A file without names goes, once it has no blocks. -/
theorem Sound.discard (h : Sound i 0 0 s) (ht : Tabled s) (hv : v ∈ s.vnodes) (hcount : (s.core v).linkcount = 0)
    (hempty : ∀ e, ¬Owns (s.view v) e) :
    Sound i 0 0 (s.forget v (update s.freemap (s.ino v) false)) ∧
      Discarded v s (s.forget v (update s.freemap (s.ino v) false)) := by
  obtain ⟨hroot, hunnamed⟩ := h.unnamed ht hv hcount
  generalize hf : update s.freemap (s.ino v) false = f
  have hinode : ∀ j, j ≠ s.ino v → inodeOf (s.forget v f) j = inodeOf s j := by
    intro j hj
    rw [forget_inodeOf ht hv, if_neg hj]
  have hfile : ∀ j, j ≠ s.ino v → SameFile (fileOf s j) (fileOf (s.forget v f) j) := by
    intro j hj
    have hsame : fileOf (s.forget v f) j = { fileOf s j with freemap := f } := by
      unfold fileOf
      rw [hinode j hj]
      rfl
    rw [hsame]
    exact ⟨mapped_same rfl (fun _ _ => rfl) fun _ => rfl, rfl, fun _ _ => rfl⟩
  have hdir : dir (s.forget v f) = dir s := dir_same (hfile _ hroot.symm) (congrArg Dinode.size (hinode _ hroot.symm))
  have hpresent : ∀ j, Present (s.forget v f) j ↔ Present s j ∧ j ≠ s.ino v := by
    intro j
    unfold Present
    rw [hdir, forget_loaded ht hv]
    constructor
    · rintro (hj | ⟨hj, hne⟩ | ⟨k, n, hk⟩)
      · exact ⟨.inl hj, fun heq => hroot (heq.symm.trans hj)⟩
      · exact ⟨.inr (.inl hj), hne⟩
      · refine ⟨.inr (.inr ⟨k, n, hk⟩), ?_⟩
        rintro rfl
        exact hunnamed k n hk
    · rintro ⟨hj | hj | hj, hne⟩
      · exact .inl hj
      · exact .inr (.inl ⟨hj, hne⟩)
      · exact .inr (.inr hj)
  have hchange : Change s (s.forget v f) := by
    refine ⟨rfl, rfl, rfl, ?_, ?_, ?_, ?_, ?_⟩
    · intro j _ hj
      have hne := ((hpresent j).mp hj).2
      exact ⟨hfile j hne, congrArg Dinode.size (hinode j hne)⟩
    · exact fun j hno hj => absurd ((hpresent j).mp hj).1 hno
    · intro j hj hno e ho
      have heq : j = s.ino v := by
        by_contra hne
        exact hno ((hpresent j).mpr ⟨hj, hne⟩)
      subst heq
      rw [fileOf_loaded ht hv] at ho
      exact hempty e ho
    · intro e he
      show f e = true ↔ _
      rw [hpresent, ← hf]
      by_cases hev : e = s.ino v
      · subst hev
        simp [present_loaded hv]
      · rw [update_of_ne hev]
        constructor
        · exact fun hbit => ⟨.inl hbit, fun hgone => hgone.2 ⟨hgone.1, hev⟩⟩
        · rintro ⟨hbit | hp, -⟩
          · exact hbit
          · exact (h.blocks.inodes e hp.1).2.1
    · intro e _ he
      show f e = _
      rw [← hf, update_of_ne]
      rintro rfl
      exact absurd (h.blocks.inodes _ (present_loaded hv)).1 (Nat.not_lt.mpr he)
  refine ⟨⟨h.blocks.change hchange, ⟨?_, ?_, ?_, ?_, ?_, ?_, ?_⟩, h.clean.forget ht⟩, hdir, hpresent, hinode, hfile⟩
  · exact Reads.listing (w := fileOf s SFS_ROOTDIR_INO)
      ⟨congrArg Dinode.size (hinode _ hroot.symm), (hfile _ hroot.symm).bytes⟩ h.names.listing
  · rw [hinode _ hroot.symm]
    exact h.names.rootType
  · rw [hinode _ hroot.symm]
    exact h.names.rootLinked
  · intro j hj hne
    rw [hinode j ((hpresent j).mp hj).2]
    exact h.names.files j ((hpresent j).mp hj).1 hne
  · intro j hj hne hji
    rw [hinode j ((hpresent j).mp hj).2, hdir]
    exact h.names.counts j ((hpresent j).mp hj).1 hne hji
  · intro hne hi
    rw [hinode i ((hpresent i).mp hi).2, hdir]
    exact h.names.owed hne ((hpresent i).mp hi).1
  · intro k n j hk
    rw [hdir] at hk
    exact h.names.notRoot k n j hk

/-! An inode is made. -/

theorem Sound.free_unused (h : Sound i a b s) (hd : Free s.bare e) : ¬Present s e ∧ e < s.nblocks ∧ 0 < e ∧
    ∀ j, Present s j → ¬Owns (fileOf s j) e := by
  obtain ⟨hpos, hlt⟩ := (h.blocks.files _ (present_root s)).exist e hd
  have hclear : s.freemap e = false := hd.2
  refine ⟨fun hp => ?_, hlt, hpos, fun j hj ho => ?_⟩
  · have hbit := (h.blocks.inodes e hp).2.1
    rw [hclear] at hbit
    cases hbit
  · have hbit := (owns_held (h.blocks.files j hj) ho).2
    exact absurd (hbit.symm.trans hclear) (by decide)

theorem Sound.idle_free (h : Sound i a b s) (hd : Free s.bare e) : Idle s e := by
  obtain ⟨hno, -, -, hunowned⟩ := h.free_unused hd
  refine ⟨hunowned, ?_⟩
  rintro j hj - rfl
  exact hno hj

/-- Block `e`, taken for a new inode of a file. -/
def newFile (e : ℕ) (s : Volume) : Volume := addVnode e (setType SFS_TYPE_FILE (.ofBlock zeros)) true (s.store (take e s.bare))

/-- A new file beside the ones there are. -/
structure Made (e : ℕ) (s s' : Volume) : Prop where
  dir : dir s' = dir s
  present : ∀ j, Present s' j ↔ Present s j ∨ j = e
  inodes : ∀ j, Present s j → inodeOf s' j = inodeOf s j
  files : ∀ j, Present s j → SameFile (fileOf s j) (fileOf s' j)
  loaded : Loaded s' e
  fixed : Fixed s s'

theorem Sound.make (h : Sound i 0 0 s) (ht : Tabled s) (hd : Free s.bare e) : Sound i 0 0 (newFile e s) ∧ Made e s (newFile e s) := by
  obtain ⟨hno, hlt, hpos, hunowned⟩ := h.free_unused hd
  have hclear : s.freemap e = false := hd.2
  have ht₁ : Tabled (s.store (take e s.bare)) := ⟨ht.unique, ht.live, ht.fresh, ht.nodup⟩
  have hunloaded : ¬Loaded (s.store (take e s.bare)) e := fun hl => hno (.inr (.inl hl))
  have hadd := add_inodeOf ht₁ hunloaded (setType SFS_TYPE_FILE (.ofBlock zeros)) true
  have hinode : ∀ j, Present s j → inodeOf (newFile e s) j = inodeOf s j := by
    intro j hj
    have hne : j ≠ e := by
      rintro rfl
      exact hno hj
    rw [newFile, hadd, if_neg hne]
    by_cases hl : Loaded s j
    · obtain ⟨u, hu, rfl⟩ := hl
      exact (inodeOf_loaded ht₁ hu).trans (inodeOf_loaded ht hu).symm
    · rw [inodeOf_unloaded hl, inodeOf_unloaded (s := s.store (take e s.bare)) hl]
      exact congrArg Dinode.ofBlock (update_of_ne hne _ _)
  have hself : inodeOf (newFile e s) e = setType SFS_TYPE_FILE (.ofBlock zeros) := by
    rw [newFile, hadd, if_pos rfl]
  have hfile : ∀ j, Present s j → SameFile (fileOf s j) (fileOf (newFile e s) j) := by
    intro j hj
    have hdisk : ∀ c, Owns (fileOf s j) c → update s.disk e zeros c = s.disk c := by
      intro c hc
      refine update_of_ne ?_ _ _
      rintro rfl
      exact hunowned j hj hc
    have hsame : fileOf (newFile e s) j = { fileOf s j with freemap := update s.freemap e true, disk := update s.disk e zeros } := by
      unfold fileOf
      rw [hinode j hj]
      rfl
    rw [hsame]
    exact ⟨mapped_same rfl (fun _ _ => rfl) fun hi => hdisk _ (owns_indirect hi), rfl, hdisk⟩
  have hroot := present_root s
  have hdir : dir (newFile e s) = dir s := dir_same (hfile _ hroot) (congrArg Dinode.size (hinode _ hroot))
  have hloaded : ∀ j, Loaded (newFile e s) j ↔ Loaded s j ∨ j = e := fun j => add_loaded ht₁
  have hpresent : ∀ j, Present (newFile e s) j ↔ Present s j ∨ j = e := by
    intro j
    unfold Present
    rw [hdir, hloaded]
    constructor
    · rintro (hj | (hj | hj) | hj)
      · exact .inl (.inl hj)
      · exact .inl (.inr (.inl hj))
      · exact .inr hj
      · exact .inl (.inr (.inr hj))
    · rintro ((hj | hj | hj) | hj)
      · exact .inl hj
      · exact .inr (.inl (.inl hj))
      · exact .inr (.inr hj)
      · exact .inr (.inl (.inr hj))
  have hnew : ∀ j, Present (newFile e s) j → ¬Present s j → j = e := fun j hj hn => ((hpresent j).mp hj).resolve_left hn
  have hempty : ∀ c, ¬Owns (fileOf (newFile e s) e) c := by
    rintro c ⟨hne, hown⟩
    unfold fileOf at hown
    rw [hself] at hown
    obtain ⟨k, hk⟩ | hi := hown
    · refine hne (hk.symm.trans ?_)
      unfold mapped
      split
      · rfl
      · split
        · exact if_pos rfl
        · rfl
    · exact hne hi.symm
  have hchange : Change s (newFile e s) := by
    refine ⟨rfl, rfl, rfl, fun j hj _ => ⟨hfile j hj, congrArg Dinode.size (hinode j hj)⟩, ?_, ?_, ?_, ?_⟩
    · intro j hn hj
      obtain rfl := hnew j hj hn
      exact ⟨hempty, hlt, hclear⟩
    · exact fun j hj hn => absurd ((hpresent j).mpr (.inl hj)) hn
    · intro c _
      show update s.freemap e true c = true ↔ _
      rw [hpresent]
      by_cases hce : c = e
      · subst hce
        simp [hno]
      · rw [update_of_ne hce]
        constructor
        · exact fun hbit => ⟨.inl hbit, fun hgone => hgone.2 (.inl hgone.1)⟩
        · rintro ⟨hbit | hp | hc, -⟩
          · exact hbit
          · exact (h.blocks.inodes c hp).2.1
          · exact absurd hc hce
    · intro c _ hc
      show update s.freemap e true c = s.freemap c
      rw [update_of_ne]
      omega
  have hfixed : Fixed s (newFile e s) := by
    refine .of_reserved rfl rfl rfl (fun c hc hr => update_of_ne ?_ _ _) fun hq => store_clean hq
    rintro rfl
    have hbit := (h.blocks.reserved c hr).1 hc
    exact absurd (hbit.symm.trans hclear) (by decide)
  have hunnamed : links (dir s) e = 0 := by
    by_contra hne
    obtain ⟨k, n, hk⟩ := links_named hne
    exact hno (.inr (.inr ⟨k, n, hk⟩))
  have hcount : (setType SFS_TYPE_FILE (.ofBlock zeros)).linkcount = 0 := rfl
  refine ⟨⟨h.blocks.change hchange, ⟨?_, ?_, ?_, ?_, ?_, ?_, ?_⟩, ?_⟩, hdir, hpresent, hinode, hfile, (hloaded e).mpr (.inr rfl), hfixed⟩
  · exact Reads.listing (w := fileOf s SFS_ROOTDIR_INO) ⟨congrArg Dinode.size (hinode _ hroot), (hfile _ hroot).bytes⟩
      h.names.listing
  · rw [hinode _ hroot]
    exact h.names.rootType
  · rw [hinode _ hroot]
    exact h.names.rootLinked
  · intro j hj hne
    obtain hold | rfl := (hpresent j).mp hj
    · rw [hinode j hold]
      exact h.names.files j hold hne
    · rw [hself]
      rfl
  · intro j hj hne hji
    rw [hdir]
    obtain hold | rfl := (hpresent j).mp hj
    · rw [hinode j hold]
      exact h.names.counts j hold hne hji
    · rw [hself, hunnamed, hcount]
  · intro hne hi
    rw [hdir]
    obtain hold | rfl := (hpresent i).mp hi
    · rw [hinode i hold]
      exact h.names.owed hne hold
    · rw [hself, hunnamed, hcount]
  · intro k n j hk
    rw [hdir] at hk
    exact h.names.notRoot k n j hk
  · intro u hu hclean
    obtain hold | rfl := add_mem.mp hu
    · have hold' : u ∈ s.vnodes := hold
      have hne : u ≠ s.nextVnode := Nat.ne_of_lt (ht.fresh u hold')
      have hino : (newFile e s).ino u = s.ino u := add_ino ht₁ hold
      have hdirty : update s.dirty s.nextVnode true u = false := hclean
      rw [update_of_ne hne] at hdirty
      have hblock : s.ino u ≠ e := fun heq => hno (heq ▸ present_loaded hold')
      rw [hino]
      show Equal (.ofBlock (update s.disk e zeros (s.ino u))) (update s.core s.nextVnode _ u)
      rw [update_of_ne hne, update_of_ne hblock]
      exact h.clean u hold' hdirty
    · have hdirty : update s.dirty s.nextVnode true s.nextVnode = false := hclean
      simp at hdirty

end OS161.SfsVolume
