import OS161.SfsInodes

/-!
# What the operations of a volume do

On a sound volume every operation comes to its end, and leaves the volume sound.
The directory changes as the operation says or, after an error, not at all, and no
file but the one that is written has other bytes.
-/

set_option autoImplicit false

namespace OS161.SfsVolume

open Function OS161.Vfs OS161.CopyInOut OS161.FirstFit OS161.Sfs OS161.SfsIo OS161.SfsTruncate OS161.SfsOwnership OS161.SfsDir
open OS161.References
open OS161.Sfsck (SFS_ROOTDIR_INO SFS_TYPE_FILE SFS_TYPE_DIR SFS_NOINO Dinode Alike)

variable {w w' : World} {d d' : Dinode} {s s' s'' : Volume} {a b e f g i j k n v : ℕ} {name : Name} {mem : Memory}

/-- The name is in the directory, for this inode. -/
def Lists (s : Volume) (n : Name) (i : ℕ) : Prop := ∃ k, dir s k = some (n, i)

/-- The reference that an operation has taken: to a vnode of the table, or to one that it has put there. -/
inductive Takes (s s' : Volume) : Option ℕ → Prop where
  | nothing (hvnodes : s'.vnodes = s.vnodes) (hvnode : s'.vnode = s.vnode) (hnext : s'.nextVnode = s.nextVnode) :
      Takes s s' none
  | found (v : ℕ) (hv : v ∈ s.vnodes) (hvnodes : s'.vnodes = s.vnodes)
      (hvnode : s'.vnode = update s.vnode v { s.vnode v with refcount := (s.vnode v).refcount+1 })
      (hnext : s'.nextVnode = s.nextVnode) : Takes s s' (some v)
  | made (i : ℕ) (hi : ∀ v ∈ s.vnodes, s.ino v ≠ i) (hvnodes : s'.vnodes = s.vnodes ++ [s.nextVnode])
      (hvnode : s'.vnode = update s.vnode s.nextVnode ⟨true, i, 1⟩) (hnext : s'.nextVnode = s.nextVnode+1) :
      Takes s s' (some s.nextVnode)

/-- Every inode is still there, and where `P` does not hold the file is what it was. -/
structure Spares (P : ℕ → Prop) (s s' : Volume) : Prop where
  present : ∀ j, Present s j → Present s' j
  bytes : ∀ j, Present s j → ¬P j → ∀ x, byteAt (fileOf s' j) x = byteAt (fileOf s j) x
  size : ∀ j, Present s j → ¬P j → (inodeOf s' j).size = (inodeOf s j).size
  fixed : Fixed s s'

theorem Spares.refl (P : ℕ → Prop) (s : Volume) : Spares P s s :=
  ⟨fun _ hj => hj, fun _ _ _ _ => rfl, fun _ _ _ => rfl, .refl s⟩

theorem Spares.trans {P : ℕ → Prop} (h : Spares P s s') (h' : Spares P s' s'') : Spares P s s'' :=
  ⟨fun j hj => h'.present j (h.present j hj), fun j hj hP x => (h'.bytes j (h.present j hj) hP x).trans (h.bytes j hj hP x),
    fun j hj hP => (h'.size j (h.present j hj) hP).trans (h.size j hj hP), h.fixed.trans h'.fixed⟩

/-- The volume is sound, and its table of vnodes. -/
structure Ready (s : Volume) : Prop where
  sound : Sound 0 0 0 s
  table : Tabled s

/-! Loading. -/

theorem bare_used (hlt : i < s.nblocks) (hbit : s.freemap i = true) : sfsBused i s.bare = .ok true := by
  show (if s.nblocks ≤ i then _ else _) = _
  rw [if_neg (Nat.not_le.mpr hlt)]
  exact congrArg Except.ok hbit

theorem bare_reads (hdevice : s.nblocks ≤ s.dBlocks) (hwords : s.dBlocks < 2^32) (hlt : i < s.nblocks) :
    sfsReadblock i s.bare = .ok (s.disk i) := by
  refine if_neg ?_
  show ¬s.dBlocks < _
  omega

theorem findVnode_finds (ht : Tabled s) (hheld : ∀ v ∈ s.vnodes, s.ino v < s.nblocks ∧ s.freemap (s.ino v) = true)
    {vs : List ℕ} (hvs : ∀ v ∈ vs, v ∈ s.vnodes) (i : ℕ) : findVnode i vs s = .ok (vs.find? fun v => s.ino v = i) := by
  induction vs with
  | nil => rfl
  | cons v vs ih =>
    have hv := hvs v (by simp)
    obtain ⟨hlt, hbit⟩ := hheld v hv
    have hlive : ¬(s.vnode v).live = false := by simp [ht.live v hv]
    have hused : sfsBused (s.ino v) s.bare = .ok true := bare_used hlt hbit
    rw [findVnode, if_neg hlive]
    simp only [hused, Bool.true_eq_false, if_false]
    by_cases hi : s.ino v = i
    · rw [if_pos hi, List.find?_cons_of_pos (by simpa using hi)]
    · rw [if_neg hi, List.find?_cons_of_neg (by simpa using hi)]
      exact ih fun u hu => hvs u (List.mem_cons_of_mem _ hu)

/-- What `sfs_loadvnode` does for an inode that is there. -/
inductive Loads (i : ℕ) (s : Volume) : Except Errno ℕ × Volume → Prop where
  | found (v : ℕ) (hv : v ∈ s.vnodes) (hi : s.ino v = i) : Loads i s (.ok v, vopIncref v s)
  | read (hn : ¬Loaded s i) : Loads i s (.ok s.nextVnode, addVnode i (.ofBlock (s.disk i)) false s)
  | failed : Loads i s (.error .enomem, s)

theorem Sound.held (h : Sound i a b s) (hv : v ∈ s.vnodes) : s.ino v < s.nblocks ∧ s.freemap (s.ino v) = true :=
  ⟨(h.blocks.inodes _ (present_loaded hv)).1, (h.blocks.inodes _ (present_loaded hv)).2.1⟩

theorem Sound.type (h : Sound i a b s) (hj : Present s j) :
    (inodeOf s j).type = if j = SFS_ROOTDIR_INO then SFS_TYPE_DIR else SFS_TYPE_FILE := by
  split
  · next hroot => rw [hroot, h.names.rootType]
  · next hne => exact h.names.files j hj hne

theorem loadvnode_loads (h : Ready s) (hi : Present s i) (mem : Memory) :
    ∃ r, sfsLoadvnode i SFS_TYPE_INVAL mem s = .ok r ∧ Loads i s r := by
  have hno : ¬SFS_TYPE_INVAL ≠ SFS_TYPE_INVAL := fun hne => hne rfl
  have hfind := findVnode_finds h.table (fun v hv => h.sound.held hv) (fun _ hv => hv) i
  unfold sfsLoadvnode
  rw [hfind]
  cases hmatch : s.vnodes.find? fun v => s.ino v = i with
  | some v =>
    simp only [if_neg hno]
    exact ⟨_, rfl, .found v (List.mem_of_find?_eq_some hmatch) (by simpa using List.find?_some hmatch)⟩
  | none =>
    have hn : ¬Loaded s i := by
      rintro ⟨u, hu, rfl⟩
      have := List.find?_eq_none.mp hmatch u hu
      simp at this
    obtain ⟨hlt, hbit, -⟩ := h.sound.blocks.inodes i hi
    have hroot := h.sound.blocks.files _ (present_root s)
    have hused : sfsBused i s.bare = .ok true := bare_used hlt hbit
    have hread : sfsReadblock i s.bare = .ok (s.disk i) := bare_reads hroot.device hroot.words hlt
    have hforced : ¬(SFS_TYPE_INVAL ≠ SFS_TYPE_INVAL ∧ (Dinode.ofBlock (s.disk i)).type ≠ SFS_TYPE_INVAL) := fun hf => hf.1 rfl
    have htype : ¬((Dinode.ofBlock (s.disk i)).type ≠ SFS_TYPE_FILE ∧ (Dinode.ofBlock (s.disk i)).type ≠ SFS_TYPE_DIR) := by
      have := h.sound.type hi
      rw [inodeOf_unloaded hn] at this
      rw [this]
      split <;> decide
    simp only [hused, Bool.true_eq_false, if_false, hread, if_neg hno, if_neg hforced, if_neg htype, decide_eq_false hno]
    by_cases hmem : mem.vnode = false
    · exact ⟨_, if_pos hmem, .failed⟩
    · rw [if_neg hmem]
      by_cases htable : mem.table = false
      · exact ⟨_, if_pos htable, .failed⟩
      · exact ⟨_, if_neg htable, .read hn⟩

/-- Loading changes the table and nothing else. -/
structure Loading (i : ℕ) (s : Volume) (r : Except Errno ℕ) (s' : Volume) : Prop where
  ready : Ready s'
  dir : dir s' = dir s
  takes : Takes s s' r.toOption
  spares : Spares (fun _ => False) s s'
  vnode : ∀ g, r = .ok g → g ∈ s'.vnodes ∧ s'.ino g = i
  error : ∀ e, r = .error e → e = .enomem
  old : ∀ v ∈ s.vnodes, v ∈ s'.vnodes ∧ s'.ino v = s.ino v

theorem Ready.loading {r : Except Errno ℕ × Volume} (h : Ready s) (hi : Present s i) (hr : Loads i s r) : Loading i s r.1 r.2 := by
  cases hr with
  | found v hv hvi =>
    obtain ⟨hsound, hdir⟩ := h.sound.incref v
    have hloaded : ∀ l, Loaded (vopIncref v s) l ↔ Loaded s l := by
      intro l
      unfold Loaded
      simp only [incref_ino]
      rfl
    refine ⟨⟨hsound, h.table.incref v⟩, hdir, .found v hv rfl rfl rfl, ⟨?_, ?_, ?_, .same rfl rfl rfl rfl rfl rfl⟩, ?_, by simp, ?_⟩
    · exact fun j hj => (present_congr hdir hloaded j).mpr hj
    · intro j _ _ x
      unfold fileOf
      rw [incref_inodeOf]
      rfl
    · intro j _ _
      rw [incref_inodeOf]
    · rintro g ⟨⟩
      exact ⟨hv, (incref_ino ..).trans hvi⟩
    · exact fun u hu => ⟨hu, incref_ino ..⟩
  | read hn =>
    obtain ⟨hsound, hdir⟩ := h.sound.load h.table hi hn
    have hinode : ∀ j, inodeOf (addVnode i (.ofBlock (s.disk i)) false s) j = inodeOf s j := by
      intro j
      rw [add_inodeOf h.table hn]
      split
      · next hji => rw [hji, inodeOf_unloaded hn]
      · rfl
    refine ⟨⟨hsound, h.table.add hn _ _⟩, hdir, .made i (fun u hu heq => hn ⟨u, hu, heq⟩) rfl rfl rfl,
      ⟨?_, ?_, ?_, .same rfl rfl rfl rfl rfl rfl⟩, ?_, by simp, ?_⟩
    · rintro j (hj | ⟨u, hu, rfl⟩ | ⟨k, n, hk⟩)
      · exact .inl hj
      · exact .inr (.inl ⟨u, add_mem.mpr (.inl hu), add_ino h.table hu⟩)
      · refine .inr (.inr ⟨k, n, ?_⟩)
        rw [hdir]
        exact hk
    · intro j _ _ x
      unfold fileOf
      rw [hinode]
      rfl
    · intro j _ _
      rw [hinode]
    · rintro g ⟨⟩
      exact ⟨add_mem.mpr (.inr rfl), add_ino_new ..⟩
    · exact fun u hu => ⟨add_mem.mpr (.inl hu), add_ino h.table hu⟩
  | failed =>
    refine ⟨h, rfl, .nothing rfl rfl rfl, .refl _ s, by simp, ?_, fun u hu => ⟨hu, rfl⟩⟩
    rintro e ⟨⟩
    rfl

/-! Making. -/

/-- What `sfs_makeobj` does for a file: the block of the new inode may be cleared in vain. -/
inductive Makes (s : Volume) : Except Errno ℕ × Volume → Prop where
  | full : Makes s (.error .enospc, s)
  | failed (e : ℕ) (hd : Free s.bare e) :
      Makes s (.error .enomem, { s with freemapdirty := true, disk := update s.disk e zeros })
  | made (e : ℕ) (hd : Free s.bare e) : Makes s (.ok s.nextVnode, newFile e s)

theorem Ready.mounted (h : Ready s) : Mounted s.bare := by
  have hroot := h.sound.blocks.files _ (present_root s)
  refine ⟨⟨(Dinode.ofBlock zeros).size_lt, hroot.exist, hroot.device, hroot.words, ?_, fun hne => absurd rfl hne, ?_, ?_⟩, h.sound.blocks.bits⟩
  all_goals
    intro c
    have hzero : mapped s.bare c = 0 := by
      unfold mapped
      split
      · rfl
      · split
        · exact if_pos rfl
        · rfl
  · exact fun hne => absurd hzero hne
  · exact fun _ _ hne => absurd hzero hne
  · exact fun hne => absurd hzero hne

theorem makeobj_makes (h : Ready s) (mem : Memory) : ∃ r, sfsMakeobj SFS_TYPE_FILE mem s = .ok r ∧ Makes s r := by
  unfold sfsMakeobj
  obtain hfull | ⟨e, hleast, halloc⟩ := balloc_cases h.mounted.sound
  · simp only [hfull]
    rw [store_same rfl]
    exact ⟨_, rfl, .full⟩
  · have hd := hleast.1
    obtain ⟨hno, hlt, hpos, -⟩ := h.sound.free_unused hd
    have hclear : s.freemap e = false := hd.2
    have hroot := h.sound.blocks.files _ (present_root s)
    generalize hs : s.store (take e s.bare) = s₁
    have hbit : ∀ c, s.freemap c = true → s₁.freemap c = true := by
      intro c hc
      subst hs
      show update s.freemap e true c = true
      by_cases hce : c = e
      · rw [hce, update_self]
      · rwa [update_of_ne hce]
    have hvnodes : s₁.vnodes = s.vnodes := by subst hs; rfl
    have hvnode : s₁.vnode = s.vnode := by subst hs; rfl
    have hino : s₁.ino = s.ino := by subst hs; rfl
    have hnblocks : s₁.nblocks = s.nblocks := by subst hs; rfl
    have ht₁ : Tabled s₁ := by
      subst hs
      exact ⟨h.table.unique, h.table.live, h.table.fresh, h.table.nodup⟩
    have hfind := findVnode_finds ht₁ (fun v hv => by
      rw [hvnodes] at hv
      rw [hino, hnblocks]
      exact ⟨(h.sound.held hv).1, hbit _ (h.sound.held hv).2⟩) (fun _ hv => hv) e
    have hnone : s₁.vnodes.find? (fun v => s₁.ino v = e) = none := by
      rw [hvnodes, hino]
      refine List.find?_eq_none.mpr fun v hv heq => hno ?_
      have hve : s.ino v = e := by simpa using heq
      exact hve ▸ present_loaded hv
    rw [hnone] at hfind
    have hused : sfsBused e s₁.bare = .ok true := by
      refine bare_used (hnblocks ▸ hlt) ?_
      subst hs
      exact update_self ..
    have hread : sfsReadblock e s₁.bare = .ok zeros := by
      have hdisk : s₁.disk e = zeros := by
        subst hs
        exact update_self ..
      rw [← hdisk]
      subst hs
      exact bare_reads hroot.device hroot.words hlt
    have hforced : SFS_TYPE_FILE ≠ SFS_TYPE_INVAL := by decide
    have hempty : ¬(SFS_TYPE_FILE ≠ SFS_TYPE_INVAL ∧ (Dinode.ofBlock zeros).type ≠ SFS_TYPE_INVAL) := fun hf => hf.2 rfl
    have htype : ¬((setType SFS_TYPE_FILE (.ofBlock zeros)).type ≠ SFS_TYPE_FILE ∧
        (setType SFS_TYPE_FILE (.ofBlock zeros)).type ≠ SFS_TYPE_DIR) := fun hf => hf.1 rfl
    have hload : sfsLoadvnode e SFS_TYPE_FILE mem s₁ = if mem.vnode = false then .ok (.error .enomem, s₁)
        else if mem.table = false then .ok (.error .enomem, s₁)
        else .ok (.ok s₁.nextVnode, addVnode e (setType SFS_TYPE_FILE (.ofBlock zeros)) true s₁) := by
      unfold sfsLoadvnode
      simp only [hfind, hused, Bool.true_eq_false, if_false, hread, if_neg hempty, if_pos hforced, if_neg htype,
        decide_eq_true hforced]
    have hmarked : s₁.freemapdirty = true := by
      by_contra hno
      rw [← hs] at hno
      have hsame := (store_clean (by simpa using hno)).2 e hd.1
      have hset : update s.freemap e true e = s.freemap e := hsame
      simp [hclear] at hset
    have hfree : ∃ w, sfsBfree e s₁.bare = .ok w ∧ s₁.store w = { s with freemapdirty := true, disk := update s.disk e zeros } := by
      have hin : ¬(s₁.bare.nbits ≤ e ∨ s₁.bare.freemap e = false) := by
        subst hs
        rintro (hle | hbit)
        · exact absurd hd.1 (Nat.not_lt.mpr hle)
        · have hset : update s.freemap e true e = false := hbit
          simp at hset
      refine ⟨_, if_neg hin, ?_⟩
      subst hs
      have hback : update (update s.freemap e true) e false = s.freemap := by
        rw [update_idem, ← hclear, update_eq_self]
      generalize hf : (s.store (take e s.bare)).freemapdirty = f at hmarked
      subst hmarked
      simp only [Volume.store, Volume.bare, Volume.file, take, hback] at hf ⊢
      rw [hf, Bool.true_or]
    obtain ⟨w, hbfree, hstore⟩ := hfree
    simp only [halloc, hs, hload]
    by_cases hmem : mem.vnode = false
    · simp only [if_pos hmem, hbfree, hstore]
      exact ⟨_, rfl, .failed e hd⟩
    · by_cases htable : mem.table = false
      · simp only [if_neg hmem, if_pos htable, hbfree, hstore]
        exact ⟨_, rfl, .failed e hd⟩
      · simp only [if_neg hmem, if_neg htable]
        subst hs
        exact ⟨_, rfl, .made e hd⟩

/-- A new file, or none, beside the others. -/
structure Making (s : Volume) (r : Except Errno ℕ) (s' : Volume) : Prop where
  ready : Ready s'
  dir : dir s' = dir s
  takes : Takes s s' r.toOption
  spares : Spares (fun _ => False) s s'
  vnode : ∀ g, r = .ok g → g ∈ s'.vnodes ∧ ¬Present s (s'.ino g)
  old : ∀ v ∈ s.vnodes, v ∈ s'.vnodes ∧ s'.ino v = s.ino v
  error : ∀ e, r = .error e → e ≠ .eexist ∧ e ≠ .enoent

theorem Ready.making {r : Except Errno ℕ × Volume} (h : Ready s) (hr : Makes s r) : Making s r.1 r.2 := by
  cases hr with
  | full =>
    refine ⟨h, rfl, .nothing rfl rfl rfl, .refl _ s, by simp, fun u hu => ⟨hu, rfl⟩, ?_⟩
    rintro e ⟨⟩
    decide
  | failed e hd =>
    have hidle := h.sound.idle_free hd
    have hno := (h.sound.free_unused hd).1
    have hsame : SameInodes s { s with freemapdirty := true, disk := update s.disk e zeros } := rewrite_same h.table hidle
    have hinode : ∀ j, Present s j → inodeOf { s with freemapdirty := true, disk := update s.disk e zeros } j = inodeOf s j :=
      fun j hj => rewrite_inodeOf h.table hidle hj
    have hreserved : ¬Reserved s.nblocks e := by
      intro hr
      have hbit := (h.sound.blocks.reserved e hr).1 (h.sound.free_unused hd).2.1
      exact absurd (hbit.symm.trans hd.2) (by decide)
    refine ⟨⟨h.sound.rewrite h.table hidle ?_, ⟨h.table.unique, h.table.live, h.table.fresh, h.table.nodup⟩⟩, hsame.dir,
      .nothing rfl rfl rfl, ⟨fun j hj => (hsame.present j).mpr hj, fun j hj _ => (hsame.files j hj).bytes, ?_,
      rewrite_fixed hreserved (by simp)⟩, by simp, fun u hu => ⟨hu, rfl⟩, ?_⟩
    · intro u hu hclean
      have hne : s.ino u ≠ e := fun heq => hno (heq ▸ present_loaded hu)
      show Equal (.ofBlock (update s.disk e zeros (s.ino u))) (s.core u)
      rw [update_of_ne hne]
      exact h.sound.clean u hu hclean
    · intro j hj _
      rw [hinode j hj]
    · rintro e ⟨⟩
      decide
  | made e hd =>
    obtain ⟨hsound, hmade⟩ := h.sound.make h.table hd
    have hno := (h.sound.free_unused hd).1
    have ht₁ : Tabled (s.store (take e s.bare)) := ⟨h.table.unique, h.table.live, h.table.fresh, h.table.nodup⟩
    have hunloaded : ¬Loaded (s.store (take e s.bare)) e := fun hl => hno (.inr (.inl hl))
    refine ⟨⟨hsound, ht₁.add hunloaded _ _⟩, hmade.dir, .made e (fun u hu heq => hunloaded ⟨u, hu, heq⟩) rfl rfl rfl,
      ⟨fun j hj => (hmade.present j).mpr (.inl hj), fun j hj _ => (hmade.files j hj).bytes, ?_, hmade.fixed⟩, ?_, ?_, by simp⟩
    · intro j hj _
      rw [hmade.inodes j hj]
    · rintro g ⟨⟩
      refine ⟨add_mem.mpr (.inr rfl), ?_⟩
      rw [show (newFile e s).ino s.nextVnode = e from add_ino_new e _ _ (s.store (take e s.bare))]
      exact hno
    · exact fun u hu => ⟨add_mem.mpr (.inl hu), add_ino ht₁ hu⟩

/-! Working on the directory. -/

theorem ofFile_self (s : Volume) (d : Dinode) (m : UserMemory) : ofFile (s.file d m) d = d := by
  obtain ⟨size, type, linkcount, direct, indirect, waste, hsize, htype, hlink, hdirect, hindirect⟩ := d
  simp only [ofFile, Dinode.setPointers, Dinode.setSize, Volume.file, Dinode.mk.injEq, true_and, and_true]
  exact ⟨Nat.mod_eq_of_lt hsize, funext fun c => Nat.mod_eq_of_lt (hdirect c), Nat.mod_eq_of_lt hindirect⟩

/-- A file that is only looked at. -/
theorem keep_view (s : Volume) (v : ℕ) : s.keep v (s.view v) = s := by
  have hsame : differs (s.core v) (s.view v) = false := by simp [differs, Volume.view, Volume.file]
  have hcore : update s.core v (ofFile (s.view v) (s.core v)) = s.core := by
    rw [Volume.view, ofFile_self, update_eq_self]
  have hdirty : update s.dirty v (s.dirty v || differs (s.core v) (s.view v)) = s.dirty := by
    rw [hsame, Bool.or_false, update_eq_self]
  unfold Volume.keep
  rw [hcore, hdirty, store_same rfl]
  rfl

/-- The vnode of the root directory. -/
structure Root (v : ℕ) (s : Volume) : Prop where
  mem : v ∈ s.vnodes
  ino : s.ino v = SFS_ROOTDIR_INO

theorem Ready.root_view (h : Ready s) (hv : Root v s) : fileOf s SFS_ROOTDIR_INO = s.view v ∧
    (s.core v).type = SFS_TYPE_DIR ∧ Mounted (s.view v) ∧ Listing (s.view v) ∧ entries (s.view v) = dir s := by
  have hview : fileOf s SFS_ROOTDIR_INO = s.view v := hv.ino ▸ fileOf_loaded h.table hv.mem
  refine ⟨hview, ?_, ?_, ?_, ?_⟩
  · rw [← inodeOf_loaded h.table hv.mem, hv.ino]
    exact h.sound.names.rootType
  · rw [← hview]
    exact h.sound.blocks.mounted (present_root s)
  · rw [← hview]
    exact h.sound.names.listing
  · rw [← hview]
    rfl

/-- The search in the directory does not change it. -/
theorem findname_runs (h : Ready s) (hv : Root v s) (name : Name) :
    ∃ r, onFile v (sfsDirFindname (s.core v).type name) s = .ok (.ok r, s) ∧
      (∀ k i, r.entry = some (k, i) → dir s k = some (name, i)) ∧ (r.entry = none → ∀ i, ¬Lists s name i) := by
  obtain ⟨-, htype, hmounted, hlisting, hentries⟩ := h.root_view hv
  obtain ⟨r, hrun, hs⟩ := findname_finds hmounted hlisting name
  refine ⟨r, ?_, ?_, ?_⟩
  · rw [onFile, htype, hrun]
    show Except.ok (_, s.keep v (s.view v)) = _
    rw [keep_view]
  · intro k i hk
    rw [← hentries]
    exact hs.found k i hk
  · rintro hnone i ⟨k, hk⟩
    rw [← hentries] at hk
    exact hs.missing_all hnone k i hk

/-- What an operation has done so far: the volume is ready, and `r` is the reference that it has taken. -/
structure Under (P : ℕ → Prop) (s : Volume) (r : Option ℕ) (s' : Volume) : Prop where
  ready : Ready s'
  takes : Takes s s' r
  spares : Spares P s s'
  old : ∀ v ∈ s.vnodes, v ∈ s'.vnodes ∧ s'.ino v = s.ino v

variable {P Q : ℕ → Prop} {r : Option ℕ}

theorem Under.start (h : Ready s) : Under P s none s := ⟨h, .nothing rfl rfl rfl, .refl P s, fun _ hu => ⟨hu, rfl⟩⟩

theorem Spares.weaken (h : Spares P s s') (hPQ : ∀ j, P j → Q j) : Spares Q s s' :=
  ⟨h.present, fun j hj hQ => h.bytes j hj fun hP => hQ (hPQ j hP), fun j hj hQ => h.size j hj fun hP => hQ (hPQ j hP),
    h.fixed⟩

theorem Under.weaken (h : Under P s r s') (hPQ : ∀ j, P j → Q j) : Under Q s r s' :=
  ⟨h.ready, h.takes, h.spares.weaken hPQ, h.old⟩

theorem Under.root (h : Under P s r s') (hv : Root v s) : Root v s' :=
  ⟨(h.old v hv.mem).1, (h.old v hv.mem).2.trans hv.ino⟩

theorem Under.load {r : Except Errno ℕ} (hl : Loading i s r s') : Under P s r.toOption s' :=
  ⟨hl.ready, hl.takes, hl.spares.weaken fun _ hf => hf.elim, hl.old⟩

theorem Under.make {r : Except Errno ℕ} (hm : Making s r s') : Under P s r.toOption s' :=
  ⟨hm.ready, hm.takes, hm.spares.weaken fun _ hf => hf.elim, hm.old⟩

/-- What comes next leaves the table as it is. -/
theorem Under.next (h : Under P s r s') (hready : Ready s'') (hvnodes : s''.vnodes = s'.vnodes) (hvnode : s''.vnode = s'.vnode)
    (hnext : s''.nextVnode = s'.nextVnode) (hspares : Spares P s' s'') : Under P s r s'' := by
  have hino : s''.ino = s'.ino := by
    unfold Volume.ino
    rw [hvnode]
  refine ⟨hready, ?_, h.spares.trans hspares, fun u hu => ?_⟩
  · cases h.takes with
    | nothing h₁ h₂ h₃ => exact .nothing (hvnodes.trans h₁) (hvnode.trans h₂) (hnext.trans h₃)
    | found u hu h₁ h₂ h₃ => exact .found u hu (hvnodes.trans h₁) (hvnode.trans h₂) (hnext.trans h₃)
    | made i hi h₁ h₂ h₃ => exact .made i hi (hvnodes.trans h₁) (hvnode.trans h₂) (hnext.trans h₃)
  · rw [hvnodes, hino]
    exact h.old u hu

theorem keep_spares (h : Blocks s) (ht : Tabled s) (hv : v ∈ s.vnodes) (hev : Evolves (s.view v) w)
    (hstay : ∀ j, Present s j → Present (s.keep v w) j) : Spares (fun j => j = s.ino v) s (s.keep v w) := by
  have hk := h.kept ht hv hev
  exact ⟨hstay, fun j hj hne => (hk.other j hj hne).1.bytes, fun j hj hne => congrArg Dinode.size (hk.other j hj hne).2,
    h.fixed ht hv hev⟩

theorem relink_spares (ht : Tabled s) (hv : v ∈ s.vnodes) (hdir : dir (s.relink v n) = dir s) : Spares P s (s.relink v n) := by
  have hinode := relink_inodeOf ht hv n true
  have hfile : ∀ j, fileOf (s.relink v n) j = fileOf s j := by
    intro j
    unfold fileOf
    rw [show inodeOf (s.relink v n) j = _ from hinode j]
    split
    · next hj =>
      rw [hj, inodeOf_loaded ht hv]
      rfl
    · rfl
  refine ⟨fun j hj => (present_congr hdir (fun _ => Iff.rfl) j).mpr hj, fun j _ _ x => ?_, fun j _ _ => ?_, .same rfl rfl rfl rfl rfl rfl⟩
  · rw [hfile]
  · exact congrArg World.size (hfile j)

/-- What `sfs_dir_link` and the count of a link do for the vnode `g`. -/
inductive Links (v g : ℕ) (name : Name) (s : Volume) : Except Errno ℕ × Volume → Prop where
  | failed (e : Errno) (s' : Volume) (hready : Ready s') (hdir : dir s' = dir s) (hvnodes : s'.vnodes = s.vnodes)
      (hvnode : s'.vnode = s.vnode) (hnext : s'.nextVnode = s.nextVnode)
      (hspares : Spares (fun j => j = SFS_ROOTDIR_INO) s s') (hcause : e = .eexist ↔ ∃ i, Lists s name i)
      (hfound : e ≠ .enoent) : Links v g name s (.error e, s')
  | entered (k : ℕ) (s' : Volume) (hnew : ∀ i, ¬Lists s name i) (hfree : dir s k = none)
      (hcore : s'.core g = s.core g) (hvnodes : s'.vnodes = s.vnodes) (hvnode : s'.vnode = s.vnode)
      (hnext : s'.nextVnode = s.nextVnode) (hready : Ready (s'.relink g ((s'.core g).linkcount + 1)))
      (hdir : dir (s'.relink g ((s'.core g).linkcount + 1)) = update (dir s) k (some (name, s.ino g)))
      (hspares : Spares (fun j => j = SFS_ROOTDIR_INO) s (s'.relink g ((s'.core g).linkcount + 1))) :
      Links v g name s (.ok k, s')

theorem Sound.count_small (h : Sound i 0 0 s) (ht : Tabled s) (hg : g ∈ s.vnodes) (hne : s.ino g ≠ SFS_ROOTDIR_INO) :
    (s.core g).linkcount + 1 < 2^16 := by
  have hcount := h.names.exact (present_loaded hg) hne
  rw [inodeOf_loaded ht hg] at hcount
  have hle := links_le (dir s) (s.ino g)
  unfold maxBlocks SFS_NDIRECT SFS_NINDIRECT SFS_DBPERIDB at hle
  omega

theorem dirLink_links (h : Ready s) (hv : Root v s) (hg : g ∈ s.vnodes) (hne : s.ino g ≠ SFS_ROOTDIR_INO) (name : Name) :
    ∃ r, onFile v (sfsDirLink (s.core v).type name (s.ino g)) s = .ok r ∧ Links v g name s r := by
  obtain ⟨-, htype, hmounted, hlisting, hentries⟩ := h.root_view hv
  obtain ⟨hlt, -, hreserved⟩ := h.sound.blocks.inodes _ (present_loaded hg)
  have hino : s.ino g ≠ SFS_NOINO := fun heq => hreserved (.inl heq)
  have hsmall := h.sound.blocks.small
  obtain ⟨res, w, hrun, hev, hl, hlinked⟩ := link_links hmounted hlisting name hino (by omega)
  have hgv : g ≠ v := by
    rintro rfl
    exact hne hv.ino
  have hcore : (s.keep v w).core g = s.core g := update_of_ne hgv _ _
  refine ⟨_, by rw [onFile, htype, hrun], ?_⟩
  cases hlinked with
  | failed e hsame hsize hcause hfound =>
    obtain ⟨hsound, hdir⟩ := h.sound.keepFile h.table hv.mem hev fun _ => ⟨hl, hsame.trans hentries⟩
    refine .failed e _ ⟨hsound, h.table.keep v w⟩ hdir rfl rfl rfl ?_ ?_ hfound
    · have hspares := keep_spares h.sound.blocks h.table hv.mem hev fun j hj =>
        (present_congr hdir (fun _ => Iff.rfl) j).mpr hj
      rwa [hv.ino] at hspares
    · rw [hentries] at hcause
      exact hcause.trans exists_comm
  | entered k hnew hlen hfree hset =>
    rw [hentries] at hset hfree
    obtain ⟨hsound, hdir⟩ := (h.sound.any (s.ino g)).enter h.table hv.mem hv.ino hev hl (present_loaded hg) hne hfree hset
    have hsmallCount := h.sound.count_small h.table hg hne
    obtain ⟨hsound', hdir'⟩ : Sound (s.ino g) 0 0 ((s.keep v w).relink g ((s.core g).linkcount + 1)) ∧ _ :=
      hsound.relink (h.table.keep v w) hg rfl hne hsmallCount (by rw [hcore]; omega)
    have hstay : ∀ j, Present s j → Present (s.keep v w) j := by
      rintro j (hj | hj | ⟨l, n, hl⟩)
      · exact .inl hj
      · exact .inr (.inl hj)
      · refine .inr (.inr ⟨l, n, ?_⟩)
        have hlk : l ≠ k := by
          rintro rfl
          simp [hfree] at hl
        rw [hdir, update_of_ne hlk]
        exact hl
    have hspares := keep_spares h.sound.blocks h.table hv.mem hev hstay
    rw [hv.ino] at hspares
    refine .entered k _ ?_ hfree hcore rfl rfl rfl ?_ ?_ ?_
    · rintro i ⟨l, hl⟩
      rw [← hentries] at hl
      exact hnew l i hl
    · rw [hcore]
      exact ⟨hsound'.any 0, ⟨h.table.unique, h.table.live, h.table.fresh, h.table.nodup⟩⟩
    · rw [hcore, hdir', hdir]
    · rw [hcore]
      exact hspares.trans (relink_spares (h.table.keep v w) hg hdir')

end OS161.SfsVolume
