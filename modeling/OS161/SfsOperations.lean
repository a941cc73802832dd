import OS161.SfsCalls

/-!
# The directory as a map

A directory stands for a finite map from names to inodes. Each operation of a volume
is one change of that map, or an error that leaves it alone; the file of a vnode
is what other operations leave as it is.
-/

set_option autoImplicit false

namespace OS161.SfsVolume

open Function OS161.Vfs OS161.CopyInOut OS161.FirstFit OS161.Sfs OS161.SfsIo OS161.SfsTruncate OS161.SfsOwnership OS161.SfsDir
open OS161.References
open OS161.Sfsck (SFS_ROOTDIR_INO SFS_TYPE_FILE SFS_TYPE_DIR SFS_NOINO Dinode Alike)

variable {w w' : World} {d d' : Dinode} {s s' s'' : Volume} {a b e f g i j k n v : ℕ} {name : Name} {mem : Memory}
  {P : ℕ → Prop} {r : Option ℕ} {o : Outcome}

open Classical in
/-- The inode that a name stands for. -/
noncomputable def files (s : Volume) (n : Name) : Option ℕ := if h : ∃ i, Lists s n i then some h.choose else none

theorem files_some (h : Ready s) : files s name = some i ↔ Lists s name i := by
  have hunique : ∀ {i j}, Lists s name i → Lists s name j → i = j := by
    rintro i j ⟨k, hk⟩ ⟨l, hl⟩
    obtain rfl := h.sound.names.listing.distinct k l name i j hk hl
    rw [hk] at hl
    cases hl
    rfl
  unfold files
  split
  · next hex =>
    constructor
    · rintro ⟨⟩
      exact hex.choose_spec
    · exact fun hi => congrArg some (hunique hex.choose_spec hi)
  · next hno => exact iff_of_false (by simp) fun hi => hno ⟨i, hi⟩

theorem files_none : files s name = none ↔ ∀ i, ¬Lists s name i := by
  unfold files
  split
  · next hex => exact iff_of_false (by simp) fun hno => hno _ hex.choose_spec
  · next hno => exact iff_of_true rfl fun i hi => hno ⟨i, hi⟩

theorem files_dir (hdir : dir s' = dir s) : files s' = files s := by
  funext n
  unfold files Lists
  rw [hdir]

theorem files_enter (h : Ready s) (h' : Ready s') (hfree : dir s k = none) (hset : dir s' = update (dir s) k (some (name, i))) :
    files s' = update (files s) name (some i) := by
  have hlists : ∀ n j, Lists s' n j ↔ Lists s n j ∨ (n = name ∧ j = i) := by
    intro n j
    unfold Lists
    rw [hset]
    constructor
    · rintro ⟨l, hl⟩
      by_cases hlk : l = k
      · rw [hlk, update_self] at hl
        cases hl
        exact .inr ⟨rfl, rfl⟩
      · rw [update_of_ne hlk] at hl
        exact .inl ⟨l, hl⟩
    · rintro (⟨l, hl⟩ | ⟨rfl, rfl⟩)
      · refine ⟨l, ?_⟩
        rw [update_of_ne, hl]
        rintro rfl
        simp [hfree] at hl
      · exact ⟨k, update_self ..⟩
  funext n
  by_cases hn : n = name
  · rw [hn, update_self]
    exact (files_some h').mpr ((hlists name i).mpr (.inr ⟨rfl, rfl⟩))
  · rw [update_of_ne hn]
    refine Option.ext fun j => ?_
    rw [files_some h', files_some h, hlists]
    simp [hn]

theorem files_clear (h : Ready s) (h' : Ready s') (hk : dir s k = some (name, i)) (hset : dir s' = update (dir s) k none) :
    files s' = update (files s) name none := by
  have hother : ∀ n, n ≠ name → ∀ j, Lists s' n j ↔ Lists s n j := by
    intro n hn j
    unfold Lists
    rw [hset]
    constructor
    · rintro ⟨l, hl⟩
      by_cases hlk : l = k
      · simp [hlk] at hl
      · rw [update_of_ne hlk] at hl
        exact ⟨l, hl⟩
    · rintro ⟨l, hl⟩
      refine ⟨l, ?_⟩
      rw [update_of_ne, hl]
      rintro rfl
      rw [hk] at hl
      cases hl
      exact hn rfl
  funext n
  by_cases hn : n = name
  · rw [hn, update_self, files_none]
    rintro j ⟨l, hl⟩
    rw [hset] at hl
    by_cases hlk : l = k
    · simp [hlk] at hl
    · rw [update_of_ne hlk] at hl
      exact hlk (h.sound.names.listing.distinct l k name j i hl hk)
  · rw [update_of_ne hn]
    refine Option.ext fun j => ?_
    rw [files_some h', files_some h]
    exact hother n hn j

/-- What a name stands for is there, and a file. -/
theorem Ready.named (h : Ready s) (hk : dir s k = some (name, i)) : Present s i ∧ i ≠ SFS_ROOTDIR_INO :=
  ⟨.inr (.inr ⟨k, name, hk⟩), h.sound.names.notRoot k name i hk⟩

theorem Ready.file (h : Ready s) (hg : g ∈ s.vnodes) (hne : s.ino g ≠ SFS_ROOTDIR_INO) : (s.core g).type = SFS_TYPE_FILE := by
  rw [← inodeOf_loaded h.table hg]
  exact h.sound.names.files _ (present_loaded hg) hne

theorem Ready.count (h : Ready s) (hg : g ∈ s.vnodes) (hne : s.ino g ≠ SFS_ROOTDIR_INO) :
    (s.core g).linkcount = links (dir s) (s.ino g) := by
  rw [← inodeOf_loaded h.table hg]
  exact h.sound.names.exact (present_loaded hg) hne

theorem Ready.linked (h : Ready s) (hg : g ∈ s.vnodes) (hk : dir s k = some (name, s.ino g)) : (s.core g).linkcount ≠ 0 := by
  rw [h.count hg (h.named hk).2]
  exact Nat.ne_of_gt (links_pos (dir_lt h.sound.names.listing (by simp [hk])) hk)

/-- What `sfs_dir_unlink` and the count of a link do for the vnode `g`. -/
structure Unlinks (g k : ℕ) (s s' : Volume) : Prop where
  core : s'.core g = s.core g
  linked : (s'.core g).linkcount ≠ 0
  vnodes : s'.vnodes = s.vnodes
  vnode : s'.vnode = s.vnode
  nextVnode : s'.nextVnode = s.nextVnode
  ready : Ready (s'.relink g ((s'.core g).linkcount - 1))
  dir : dir (s'.relink g ((s'.core g).linkcount - 1)) = update (SfsVolume.dir s) k none
  spares : Spares (fun j => j = SFS_ROOTDIR_INO) s (s'.relink g ((s'.core g).linkcount - 1))

theorem dirUnlink_unlinks (h : Ready s) (hv : Root v s) (hg : g ∈ s.vnodes) (hk : dir s k = some (name, s.ino g)) :
    ∃ s', onFile v (sfsDirUnlink k) s = .ok (.ok (), s') ∧ Unlinks g k s s' := by
  obtain ⟨-, -, hmounted, hlisting, hentries⟩ := h.root_view hv
  have hne := (h.named hk).2
  obtain ⟨w, hrun, hev, hl, hset⟩ := unlink_clears hmounted hlisting (show entries (s.view v) k ≠ none by simp [hentries, hk])
  rw [hentries] at hset
  have hgv : g ≠ v := by
    rintro rfl
    exact hne hv.ino
  have hcore : (s.keep v w).core g = s.core g := update_of_ne hgv _ _
  have hlinked := h.linked hg hk
  obtain ⟨hsound, hdir⟩ := (h.sound.any (s.ino g)).clear h.table hv.mem hv.ino hev hl ⟨g, hg, rfl⟩ hk hset
  have ht := h.table.keep v w
  have hcount := (s.core g).linkcount_lt
  obtain ⟨hsound', hdir'⟩ : Sound (s.ino g) 0 0 ((s.keep v w).relink g ((s.core g).linkcount - 1)) ∧ _ :=
    hsound.relink ht hg rfl hne (by omega) (by rw [hcore]; omega)
  have hstay : ∀ j, Present s j → Present (s.keep v w) j := by
    rintro j (hj | hj | ⟨l, n, hj⟩)
    · exact .inl hj
    · exact .inr (.inl hj)
    · by_cases hlk : l = k
      · rw [hlk, hk] at hj
        cases hj
        exact .inr (.inl ⟨g, hg, rfl⟩)
      · refine .inr (.inr ⟨l, n, ?_⟩)
        rw [hdir, update_of_ne hlk]
        exact hj
  have hspares := keep_spares h.sound.blocks h.table hv.mem hev hstay
  rw [hv.ino] at hspares
  refine ⟨s.keep v w, by rw [onFile, hrun], hcore, by rwa [hcore], rfl, rfl, rfl, ?_, ?_, ?_⟩
  · rw [hcore]
    exact ⟨hsound'.any 0, ⟨ht.unique, ht.live, ht.fresh, ht.nodup⟩⟩
  · rw [hcore, hdir', hdir]
  · rw [hcore]
    exact hspares.trans (relink_spares ht hg hdir')

/-- What `sfs_lookonce` does: it finds the file of the name. -/
inductive Looks (name : Name) (s : Volume) : Except Errno (ℕ × ℕ) × Volume → Prop where
  | missing (hno : files s name = none) : Looks name s (.error .enoent, s)
  | failed (i : ℕ) (hi : files s name = some i) : Looks name s (.error .enomem, s)
  | found (g k : ℕ) (s' : Volume) (hk : dir s' k = some (name, s'.ino g)) (hl : Loading (s'.ino g) s (.ok g) s') :
      Looks name s (.ok (g, k), s')

theorem lookonce_looks (h : Ready s) (hv : Root v s) (name : Name) (mem : Memory) :
    ∃ r, sfsLookonce v name mem s = .ok r ∧ Looks name s r := by
  obtain ⟨⟨entry, slot⟩, hrun, hfound, hmissing⟩ := findname_runs h hv name
  simp only [sfsLookonce, hrun]
  cases entry with
  | none => exact ⟨_, rfl, .missing (files_none.mpr (hmissing rfl))⟩
  | some x =>
    obtain ⟨k, i⟩ := x
    have hk := hfound k i rfl
    obtain ⟨⟨res, s'⟩, hload, hl⟩ := loadvnode_loads h (h.named hk).1 mem
    have hloading := h.loading (h.named hk).1 hl
    simp only [hload]
    cases res with
    | error e =>
      cases hl
      exact ⟨_, rfl, .failed i ((files_some h).mpr ⟨k, hk⟩)⟩
    | ok g =>
      obtain ⟨hg, rfl⟩ := hloading.vnode g rfl
      have hk' : dir s' k = some (name, s'.ino g) := by rw [hloading.dir]; exact hk
      dsimp only
      rw [if_neg (hloading.ready.linked hg hk')]
      exact ⟨_, rfl, .found g k s' hk' hloading⟩

/-- The vnode that a call returns or still gives back. -/
def Outcome.vnode (o : Outcome) : Option ℕ :=
  match o.drop, o.result with
  | some v, _ => some v
  | none, .ok r => r
  | none, .error _ => none

/-! The operations. -/

/-- Only the bytes of the directory change. -/
abbrev Works (s : Volume) (o : Outcome) (s' : Volume) : Prop := Under (fun j => j = SFS_ROOTDIR_INO) s o.vnode s'

theorem sfsGetroot_works (h : Ready s) (mem : Memory) : ∃ o s', sfsGetroot mem s = .ok (o, s') ∧
    Under (fun _ => False) s o.vnode s' ∧ files s' = files s := by
  obtain ⟨⟨res, s'⟩, hload, hl⟩ := loadvnode_loads h (present_root s) mem
  have hloading := h.loading (present_root s) hl
  simp only [sfsGetroot, hload]
  cases res with
  | error e => exact ⟨_, _, rfl, .load hloading, files_dir hloading.dir⟩
  | ok g =>
    obtain ⟨hg, hino⟩ := hloading.vnode g rfl
    have htype : (s'.core g).type = SFS_TYPE_DIR := (hloading.ready.root_view ⟨hg, hino⟩).2.1
    dsimp only
    rw [if_neg (fun hno => hno htype)]
    exact ⟨_, _, rfl, .load hloading, files_dir hloading.dir⟩

inductive Lookups (name : Name) (s : Volume) : Outcome → Volume → Prop where
  | found (g : ℕ) (s' : Volume) (hmem : g ∈ s'.vnodes) (hnamed : files s name = some (s'.ino g)) (hsame : files s' = files s) :
      Lookups name s ⟨none, .ok (some g)⟩ s'
  | missing (hno : files s name = none) : Lookups name s ⟨none, .error .enoent⟩ s
  | failed (i : ℕ) (hi : files s name = some i) : Lookups name s ⟨none, .error .enomem⟩ s

theorem sfsLookup_lookups (h : Ready s) (hv : Root v s) (name : Name) (mem : Memory) :
    ∃ o s', sfsLookup v name mem s = .ok (o, s') ∧ Under (fun _ => False) s o.vnode s' ∧ Lookups name s o s' := by
  have htype := (h.root_view hv).2.1
  obtain ⟨r, hrun, hlooks⟩ := lookonce_looks h hv name mem
  simp only [sfsLookup, htype, ne_eq, not_true_eq_false, if_false, hrun]
  cases hlooks with
  | missing hno => exact ⟨_, _, rfl, .start h, .missing hno⟩
  | failed i hi => exact ⟨_, _, rfl, .start h, .failed i hi⟩
  | found g k s' hk hl =>
    have hnamed := (files_some hl.ready).mpr ⟨k, hk⟩
    rw [files_dir hl.dir] at hnamed
    exact ⟨_, _, rfl, .load hl, .found g s' (hl.vnode g rfl).1 hnamed (files_dir hl.dir)⟩

inductive Creates (name : Name) (excl : Bool) (s : Volume) : Outcome → Volume → Prop where
  | refused (i : ℕ) (hi : files s name = some i) (hexcl : excl = true) : Creates name excl s ⟨none, .error .eexist⟩ s
  | found (g : ℕ) (s' : Volume) (hmem : g ∈ s'.vnodes) (hexcl : excl = false) (hnamed : files s name = some (s'.ino g))
      (hsame : files s' = files s) : Creates name excl s ⟨none, .ok (some g)⟩ s'
  | made (g : ℕ) (s' : Volume) (hmem : g ∈ s'.vnodes) (hnew : files s name = none) (hfresh : ¬Present s (s'.ino g))
      (hset : files s' = update (files s) name (some (s'.ino g))) : Creates name excl s ⟨none, .ok (some g)⟩ s'
  | failed (d : Option ℕ) (e : Errno) (s' : Volume) (hcause : e ≠ .eexist ∧ e ≠ .enoent) (hsame : files s' = files s) :
      Creates name excl s ⟨d, .error e⟩ s'

theorem sfsCreat_creates (h : Ready s) (hv : Root v s) (name : Name) (excl : Bool) (mem : Memory) :
    ∃ o s', sfsCreat v name excl mem s = .ok (o, s') ∧ Works s o s' ∧ Creates name excl s o s' := by
  obtain ⟨⟨entry, slot⟩, hrun, hfound, hmissing⟩ := findname_runs h hv name
  simp only [sfsCreat, hrun]
  cases entry with
  | some x =>
    obtain ⟨k, i⟩ := x
    have hk := hfound k i rfl
    have hi : files s name = some i := (files_some h).mpr ⟨k, hk⟩
    obtain ⟨⟨res, s'⟩, hload, hl⟩ := loadvnode_loads h (h.named hk).1 mem
    have hloading := h.loading (h.named hk).1 hl
    cases excl with
    | true => exact ⟨_, _, rfl, .start h, .refused i hi rfl⟩
    | false =>
      simp only [Bool.false_eq_true, if_false, hload]
      cases res with
      | error e =>
        refine ⟨_, _, rfl, .load hloading, .failed none e s' ?_ (files_dir hloading.dir)⟩
        rw [hloading.error e rfl]
        decide
      | ok g =>
        obtain ⟨hg, rfl⟩ := hloading.vnode g rfl
        exact ⟨_, _, rfl, .load hloading, .found g s' hg rfl hi (files_dir hloading.dir)⟩
  | none =>
    have hnone := files_none.mpr (hmissing rfl)
    obtain ⟨⟨res, s₁⟩, hmake, hm⟩ := makeobj_makes h mem
    have hmaking := h.making hm
    simp only [hmake]
    cases res with
    | error e => exact ⟨_, _, rfl, .make hmaking, .failed none e s₁ (hmaking.error e rfl) (files_dir hmaking.dir)⟩
    | ok g =>
      obtain ⟨hg, hnew⟩ := hmaking.vnode g rfl
      have hunder : Under (fun j => j = SFS_ROOTDIR_INO) s (some g) s₁ := .make hmaking
      have hne : s₁.ino g ≠ SFS_ROOTDIR_INO := fun heq => hnew (.inl heq)
      obtain ⟨⟨res, s₂⟩, hlink, hlinks⟩ := dirLink_links hmaking.ready (hunder.root hv) hg hne name
      simp only [hlink]
      cases hlinks with
      | failed e _ hready hdir hvnodes hvnode hnext hspares hcause hfound =>
        refine ⟨_, _, rfl, hunder.next hready hvnodes hvnode hnext hspares, .failed (some g) e _ ⟨?_, hfound⟩ ?_⟩
        · intro heq
          obtain ⟨i, l, hl⟩ := hcause.mp heq
          rw [hmaking.dir] at hl
          exact files_none.mp hnone i ⟨l, hl⟩
        · rw [files_dir hdir, files_dir hmaking.dir]
      | entered k _ _ hfree hcore hvnodes hvnode hnext hready hdir hspares =>
        have hino : (s₂.relink g ((s₂.core g).linkcount + 1)).ino g = s₁.ino g := congrArg (fun x => (x g).number) hvnode
        refine ⟨_, _, rfl, hunder.next hready hvnodes hvnode hnext hspares, .made g _ (hvnodes ▸ hg) hnone ?_ ?_⟩
        · rwa [hino]
        · rw [hino, files_enter hmaking.ready hready hfree hdir, files_dir hmaking.dir]

inductive Enters (name : Name) (i : ℕ) (s : Volume) : Outcome → Volume → Prop where
  | entered (s' : Volume) (hnew : files s name = none) (hset : files s' = update (files s) name (some i)) :
      Enters name i s ⟨none, .ok none⟩ s'
  | directory (hroot : i = SFS_ROOTDIR_INO) : Enters name i s ⟨none, .error .einval⟩ s
  | failed (e : Errno) (s' : Volume) (hcause : e = .eexist ↔ files s name ≠ none) (hfound : e ≠ .enoent)
      (hsame : files s' = files s) : Enters name i s ⟨none, .error e⟩ s'

theorem sfsLink_enters (h : Ready s) (hv : Root v s) (hf : f ∈ s.vnodes) (name : Name) :
    ∃ o s', sfsLink v name f s = .ok (o, s') ∧ Works s o s' ∧ Enters name (s.ino f) s o s' := by
  unfold sfsLink
  split
  · next hdir =>
    refine ⟨_, _, rfl, .start h, .directory ?_⟩
    by_contra hne
    rw [h.file hf hne] at hdir
    cases hdir
  · next hfile =>
    have hne : s.ino f ≠ SFS_ROOTDIR_INO := fun heq => hfile (h.root_view ⟨hf, heq⟩).2.1
    obtain ⟨⟨res, s₁⟩, hlink, hlinks⟩ := dirLink_links h hv hf hne name
    have hunder : Under (fun j => j = SFS_ROOTDIR_INO) s none s := .start h
    simp only [hlink]
    cases hlinks with
    | failed e _ hready hdir hvnodes hvnode hnext hspares hcause hfound =>
      refine ⟨_, _, rfl, hunder.next hready hvnodes hvnode hnext hspares, .failed e _ ?_ hfound (files_dir hdir)⟩
      rw [hcause, ne_eq, files_none]
      push Not
      exact Iff.rfl
    | entered k _ hnew hfree hcore hvnodes hvnode hnext hready hdir hspares =>
      exact ⟨_, _, rfl, hunder.next hready hvnodes hvnode hnext hspares,
        .entered _ (files_none.mpr hnew) (files_enter h hready hfree hdir)⟩

inductive Removes (name : Name) (s : Volume) : Outcome → Volume → Prop where
  | removed (g : ℕ) (s' : Volume) (hnamed : files s name = some (s'.ino g)) (hset : files s' = update (files s) name none) :
      Removes name s ⟨some g, .ok none⟩ s'
  | missing (hno : files s name = none) : Removes name s ⟨none, .error .enoent⟩ s
  | failed (i : ℕ) (hi : files s name = some i) : Removes name s ⟨none, .error .enomem⟩ s

theorem sfsRemove_removes (h : Ready s) (hv : Root v s) (name : Name) (mem : Memory) :
    ∃ o s', sfsRemove v name mem s = .ok (o, s') ∧ Works s o s' ∧ Removes name s o s' := by
  obtain ⟨r, hrun, hlooks⟩ := lookonce_looks h hv name mem
  simp only [sfsRemove, hrun]
  cases hlooks with
  | missing hno => exact ⟨_, _, rfl, .start h, .missing hno⟩
  | failed i hi => exact ⟨_, _, rfl, .start h, .failed i hi⟩
  | found g k s₁ hk hl =>
    have hunder : Under (fun j => j = SFS_ROOTDIR_INO) s (some g) s₁ := .load hl
    obtain ⟨s₂, hunlink, hu⟩ := dirUnlink_unlinks hl.ready (hunder.root hv) (hl.vnode g rfl).1 hk
    have hino : (s₂.relink g ((s₂.core g).linkcount - 1)).ino g = s₁.ino g := congrArg (fun x => (x g).number) hu.vnode
    have hnamed := (files_some hl.ready).mpr ⟨k, hk⟩
    rw [files_dir hl.dir] at hnamed
    simp only [hunlink, if_neg hu.linked]
    refine ⟨_, _, rfl, hunder.next hu.ready hu.vnodes hu.vnode hu.nextVnode hu.spares, .removed g _ ?_ ?_⟩
    · rwa [hino]
    · rw [files_clear hl.ready hu.ready hk hu.dir, files_dir hl.dir]

inductive Renames (n₁ n₂ : Name) (s : Volume) : Outcome → Volume → Prop where
  | moved (g : ℕ) (s' : Volume) (hnamed : files s n₁ = some (s'.ino g)) (hnew : files s n₂ = none)
      (hset : files s' = update (update (files s) n₂ (some (s'.ino g))) n₁ none) : Renames n₁ n₂ s ⟨some g, .ok none⟩ s'
  | missing (hno : files s n₁ = none) : Renames n₁ n₂ s ⟨none, .error .enoent⟩ s
  | failed (i : ℕ) (hi : files s n₁ = some i) : Renames n₁ n₂ s ⟨none, .error .enomem⟩ s
  | refused (g : ℕ) (e : Errno) (s' : Volume) (hnamed : files s n₁ = some (s'.ino g))
      (hcause : e = .eexist ↔ files s n₂ ≠ none) (hfound : e ≠ .enoent) (hsame : files s' = files s) : Renames n₁ n₂ s ⟨some g, .error e⟩ s'

theorem sfsRename_renames (h : Ready s) (hv : Root v s) (n₁ n₂ : Name) (mem : Memory) :
    ∃ o s', sfsRename v n₁ n₂ mem s = .ok (o, s') ∧ Works s o s' ∧ Renames n₁ n₂ s o s' := by
  obtain ⟨r, hrun, hlooks⟩ := lookonce_looks h hv n₁ mem
  simp only [sfsRename, hv.ino, ne_eq, not_true_eq_false, if_false, hrun]
  cases hlooks with
  | missing hno => exact ⟨_, _, rfl, .start h, .missing hno⟩
  | failed i hi => exact ⟨_, _, rfl, .start h, .failed i hi⟩
  | found g k s₁ hk hl =>
    have hunder : Under (fun j => j = SFS_ROOTDIR_INO) s (some g) s₁ := .load hl
    have hg := (hl.vnode g rfl).1
    have hne := (hl.ready.named hk).2
    have hnamed := (files_some hl.ready).mpr ⟨k, hk⟩
    rw [files_dir hl.dir] at hnamed
    obtain ⟨⟨res, s₂⟩, hlink, hlinks⟩ := dirLink_links hl.ready (hunder.root hv) hg hne n₂
    have htype : ¬¬(s₁.core g).type = SFS_TYPE_FILE := not_not_intro (hl.ready.file hg hne)
    simp only [if_neg htype, hlink]
    cases hlinks with
    | failed e _ hready hdir hvnodes hvnode hnext hspares hcause hfound =>
      have hino : s₂.ino g = s₁.ino g := congrArg (fun x => (x g).number) hvnode
      refine ⟨_, _, rfl, hunder.next hready hvnodes hvnode hnext hspares, .refused g e _ ?_ ?_ hfound ?_⟩
      · rwa [hino]
      · rw [hcause, ne_eq, ← files_dir hl.dir, files_none]
        push Not
        exact Iff.rfl
      · rw [files_dir hdir, files_dir hl.dir]
    | entered k₂ _ hnew hfree hcore hvnodes hvnode hnext hready hdir hspares =>
      have hunder₂ := hunder.next hready hvnodes hvnode hnext hspares
      generalize hs₃ : s₂.relink g ((s₂.core g).linkcount + 1) = s₃ at hready hdir hunder₂
      have hino₃ : s₃.ino g = s₁.ino g := by
        subst hs₃
        exact congrArg (fun x => (x g).number) hvnode
      have hg₃ : g ∈ s₃.vnodes := by
        subst hs₃
        exact hvnodes ▸ hg
      have hk₃ : dir s₃ k = some (n₁, s₃.ino g) := by
        rw [hdir, hino₃, update_of_ne, hk]
        rintro rfl
        simp [hfree] at hk
      obtain ⟨s₄, hunlink, hu⟩ := dirUnlink_unlinks hready (hunder₂.root hv) hg₃ hk₃
      have hino : (s₄.relink g ((s₄.core g).linkcount - 1)).ino g = s₁.ino g :=
        (congrArg (fun x => (x g).number) hu.vnode).trans hino₃
      simp only [hs₃, hunlink, if_neg hu.linked]
      refine ⟨_, _, rfl, hunder₂.next hu.ready hu.vnodes hu.vnode hu.nextVnode hu.spares, .moved g _ ?_ ?_ ?_⟩
      · rwa [hino]
      · rw [← files_dir hl.dir]
        exact files_none.mpr hnew
      · rw [hino, files_clear hready hu.ready hk₃ hu.dir, files_enter hl.ready hready hfree hdir, files_dir hl.dir]

end OS161.SfsVolume
