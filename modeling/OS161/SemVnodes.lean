import OS161.SemCreation

/-!
# Vnodes of semaphores

`semfs_getvnode` finds the vnode or makes one, and its caller goes on with the
reference.
-/

set_option autoImplicit false

namespace OS161.SemDirectory

open Function OS161.Vfs OS161.References OS161.Runs

variable {T : Type} [DecidableEq T] {s s' : State T} {t u : T} {x y : Place} {o k v : ℕ}

omit [DecidableEq T] in
theorem Inv.next_dead (h : Inv s) : (s.vnode s.nextVnode).live = false := by
  by_contra hno
  exact absurd (h.refs.fresh s.nextVnode (Bool.of_not_eq_false hno)) (Nat.lt_irrefl _)

omit [DecidableEq T] in
/-- A number in the table is not the one of the root directory. -/
theorem Inv.not_root (h : Inv s) (hs : s.sems k = some o) : k ≠ SEMFS_ROOTDIR := by
  have := h.reg.bound k o hs
  have := h.reg.size
  omega

omit [DecidableEq T] in
theorem Inv.vnode_of_flag (h : Inv s) (hs : s.sems k = some o) (hv : (s.sem o).hasvnode = true) :
    ∃ v ∈ s.vnodes, (s.vnode v).number = k := by
  obtain ⟨v, hmem, -, hk⟩ := h.tied.loaded o hv
  exact ⟨v, hmem, h.reg.inj _ _ _ hk hs⟩

omit [DecidableEq T] in
theorem Inv.flag_of_vnode (h : Inv s) (hs : s.sems k = some o) (hmem : v ∈ s.vnodes) (hk : (s.vnode v).number = k) :
    (s.sem o).hasvnode = true := by
  obtain hroot | ⟨p, hp, hflag⟩ := h.tied.flagged v hmem
  · exact absurd (hk ▸ hroot) (h.not_root hs)
  · rw [hk, hs] at hp
    cases hp
    exact hflag

omit [DecidableEq T] in
theorem semarrayGet_ok (h : Inv s) (hs : s.sems k = some o) {s' : State T} (hsem : s'.sem = s.sem)
    (hsems : s'.sems = s.sems) (hnum : s'.numSems = s.numSems) : semarrayGet k s' = .ok o := by
  have hlt := h.reg.bound k o hs
  have hlive : (s.sem o).live = true := h.reg.live k o hs
  simp [semarrayGet, hsem, hsems, hnum, hs, hlive, hlt]

omit [DecidableEq T] in
/-- An entry that the directory's thread has not made or unlinked is linked. -/
theorem Inv.entry_linked (h : Inv s) (hin : inDir (s.place t) = true) (ht : touches (s.place t) = none) {i : ℕ}
    (hi : EntryAt s i k) : ∃ o, s.sems k = some o ∧ (s.sem o).linked = true := by
  obtain ⟨d, hd, rfl⟩ := hi
  obtain ⟨u, hu⟩ | hk := h.direc.named i d hd
  · obtain rfl := h.alone hin touches_outside hu
    simp [ht] at hu
  · exact hk

/-- `semfs_getvnode` finds the vnode. -/
theorem Inv.found (h : Inv s) {c : Caller} (hp : s.place t = .getvnode k c) (hn : s.tablelock = none)
    (hv : v ∈ s.vnodes) (hk : (s.vnode v).number = k) :
    Inv (({ s with tablelock := some t }.setVnode v { s.vnode v with refcount := (s.vnode v).refcount+1 }).goto t
      (.gotvnode k c (.ok v))) := by
  have hnum : ∀ w, (update s.vnode v { s.vnode v with refcount := (s.vnode v).refcount+1 } w).number =
      (s.vnode w).number := by
    intro w
    by_cases hw : w = v
    · subst hw
      rw [update_self]
    · rw [update_of_ne hw]
  have hvout : ∀ w, (∃ u, u ≠ t ∧ gone (s.place u) = some w) → hand (.gotvnode k c (.ok v)) ≠ some w := by
    rintro w ⟨u, -, hu⟩ ⟨⟩
    exact (h.out u _ hu).1 hv
  have hbuild : ∀ y, s.place t = y → lockOf y = none → hand y = none → inDir y = inDir (.gotvnode k c (.ok v)) →
      owns (.gotvnode k c (.ok v)) = owns y → detached (.gotvnode k c (.ok v)) = detached y →
      touches (.gotvnode k c (.ok v)) = touches y →
      Facts { s with vnode := update s.vnode v { s.vnode v with refcount := (s.vnode v).refcount+1 } }
        (.gotvnode k c (.ok v)) →
      Inv (({ s with tablelock := some t }.setVnode v { s.vnode v with refcount := (s.vnode v).refcount+1 }).goto t
        (.gotvnode k c (.ok v))) := by
    rintro y rfl hl hh hd ho hdet ht hf
    exact h.buildRefs rfl (h.dir.stay hd.symm) (h.tab_taken hn rfl) hl.symm ho hdet ht (h.refs.take hv hh)
      (h.tied.keep (fun w _ => hnum w) (fun _ => rfl) (fun _ _ hk _ => hk)) (by rintro w ⟨⟩; exact hv) rfl
      (fun w _ => ⟨Iff.rfl, hnum w⟩) hvout hf
  cases c with
  | getroot | lookup => exact hbuild _ hp rfl rfl rfl rfl rfl rfl trivial
  | creat i o =>
    -- its semaphore has no vnode yet
    obtain ⟨-, hs⟩ : Facts s (.getvnode k (.creat i o)) := hp ▸ h.facts t
    have hno : (s.sem o).hasvnode = false := (h.reg.owned t o (by rw [hp]; rfl)).2.2
    simp [h.flag_of_vnode hs hv hk] at hno

omit [DecidableEq T] in
/-- A number that was handed out before is not the one of a new vnode. -/
theorem Inv.number_kept (h : Inv s) {n : Vnode} (hv : (s.vnode v).live = true) :
    (update s.vnode s.nextVnode n v).number = (s.vnode v).number := by
  have hne : v ≠ s.nextVnode := by
    rintro rfl
    simp [h.next_dead] at hv
  rw [update_of_ne hne]

omit [DecidableEq T] in
theorem Inv.next_new (h : Inv s) : s.nextVnode ∉ s.vnodes := by
  intro hm
  have := h.refs.live _ hm
  simp [h.next_dead] at this

omit [DecidableEq T] in
/-- A new vnode, which goes to the end of the table. -/
theorem Inv.member_kept (h : Inv s) (hv : (s.vnode v).live = true) :
    v ∈ s.vnodes ++ [s.nextVnode] ↔ v ∈ s.vnodes := by
  have hne : v ≠ s.nextVnode := by
    rintro rfl
    simp [h.next_dead] at hv
  simp [hne]

omit [DecidableEq T] in
theorem Inv.next_untouched (h : Inv s) (hu : hand (s.place u) = some s.nextVnode) : False := by
  have := h.refs.inHand u _ hu
  simp [h.next_dead] at this

theorem gone_hand (hy : gone y = some v) : hand y = some v := by
  cases y <;> simp_all [gone, hand]

theorem Inv.madeRoot (h : Inv s) (hp : s.place t = .getvnode SEMFS_ROOTDIR .getroot) (hn : s.tablelock = none)
    (hnew : ∀ v ∈ s.vnodes, (s.vnode v).number ≠ SEMFS_ROOTDIR) :
    Inv ((semfsVnodeCreate SEMFS_ROOTDIR { s with tablelock := some t }).2.goto t
      (.gotvnode SEMFS_ROOTDIR .getroot (.ok s.nextVnode))) := by
  refine h.buildRefs hp (h.dir.stay (by rw [hp]; rfl)) (h.tab_taken hn rfl) rfl rfl rfl rfl
    (h.refs.create hnew (by rw [hp]; rfl)) (h.tied.addRoot h.next_new rfl) ?_ rfl
    (fun v hv => ⟨h.member_kept hv, h.number_kept hv⟩) ?_ trivial
  · rintro v ⟨⟩
    simp
  · rintro v ⟨u, -, hu⟩ ⟨⟩
    exact h.next_untouched (gone_hand hu)

/-- A vnode for a semaphore that has none. -/
theorem Inv.made (h : Inv s) {c : Caller} (hp : s.place t = .getvnode k c) (hn : s.tablelock = none)
    (hnew : ∀ v ∈ s.vnodes, (s.vnode v).number ≠ k) (hc : c ≠ .getroot) (hs : s.sems k = some o)
    (hown : (s.sem o).linked = true ∨ owns (.getvnode k c) = some o)
    (hf : ∀ s' : State T, s'.dents = s.dents → s'.sems = s.sems → Half s' o ∨ (s.sem o).linked = true →
      (s'.vnode s.nextVnode).number = k → Facts s' (.gotvnode k c (.ok s.nextVnode))) :
    Inv (((semfsVnodeCreate k { s with tablelock := some t }).2.setSem o { s.sem o with hasvnode := true }).goto t
      (.gotvnode k c (.ok s.nextVnode))) := by
  have hin : inDir (s.place t) = true := by
    rw [hp]
    simpa [inDir] using hc
  have hlive : (s.sem o).live = true := h.reg.live k o hs
  have hdet : detached (s.place t) = none := by rw [hp]; rfl
  have hone : ∀ u, owns (s.place u) = some o → u = t := fun u hu => h.alone hin owns_outside hu
  have hmine : owns (s.place t) = some o ∨ owns (s.place t) = none := by
    obtain hl | ho := hown
    · right
      by_contra hne
      obtain ⟨p, hpo⟩ := Option.ne_none_iff_exists'.mp hne
      rw [hp] at hpo
      cases c with
      | creat i q =>
        obtain ⟨-, hs'⟩ : Facts s (.getvnode k (.creat i q)) := hp ▸ h.facts t
        obtain rfl : o = q := Option.some.inj (hs.symm.trans hs')
        have hno : (s.sem o).linked = false := (h.reg.owned t o (by rw [hp]; rfl)).2.1
        simp [hno] at hl
      | _ => cases hpo
    · exact .inl (hp ▸ ho)
  have hflags : (⟨(s.sem o).live, true, (s.sem o).linked⟩ : Flags) = ⟨true, true, (s.sem o).linked⟩ := by rw [hlive]
  have hx : owns (.gotvnode k c (.ok s.nextVnode)) = none := by cases c <;> rfl
  have hxd : detached (.gotvnode k c (.ok s.nextVnode)) = none := rfl
  refine h.build rfl (flags_update ..) (h.dir.stay (by rw [hp]; rfl)) (h.tab_taken hn rfl)
    (h.relock rfl (by rw [hp]; rfl)) ?_ ?_ (h.refs.create hnew (by rw [hp]; rfl)) ?_ ?_ ?_ ?_ ?_ ?_ ?_
  · rw [role_same detached s.place (x := .gotvnode k c (.ok s.nextVnode)) hdet.symm, hx]
    show Registry _ _ (update _ o ⟨(s.sem o).live, true, (s.sem o).linked⟩) _ _ _
    rw [hflags]
    exact h.reg.reflag hs hone hmine hdet (.inr ⟨rfl, .inl rfl⟩)
  · rw [role_same touches s.place (by rw [hp]; cases c <;> rfl)]
    refine h.direc.keep (fun j p hj hl => ⟨hj, ?_⟩)
    by_cases hpo : p = o
    · subst hpo
      rw [update_self]
      exact hl
    · rwa [update_of_ne hpo]
  · exact h.tied.add h.next_new (h.not_root hs) hs rfl
  · rintro v ⟨⟩
    exact .inr (by simp [semfsVnodeCreate, State.setSem, State.goto])
  · intro v hv
    cases hv
  · exact fun u v _ _ hv => List.mem_append_left _ hv
  · intro u v _ hu
    have hv := h.refs.inHand u v (gone_hand hu)
    refine ⟨fun hm => (h.out u v hu).1 ((h.member_kept hv).mp hm), ?_⟩
    rintro ⟨⟩
    exact h.next_untouched (gone_hand hu)
  · refine hf _ rfl rfl ?_ (by simp [semfsVnodeCreate, State.setSem, State.goto])
    by_cases hl : (s.sem o).linked = true
    · exact .inr hl
    · left
      simp [Half, semfsVnodeCreate, State.setSem, State.goto, hlive, hl]
  · exact h.bystanders (fun u hu => h.only_dir hin hu) (fun v hv => h.number_kept hv) (fun _ _ hk _ => hk)

theorem getvnode_steps {c : Caller} {mem : Memory} (h : Inv s) (hp : s.place t = .getvnode k c) :
    Steps (getvnode t k c mem s) := by
  refine ensures_acquire rfl (h.tab_ne hp rfl) ?_
  intro hn
  have hf : Facts s (.getvnode k c) := hp ▸ h.facts t
  simp only
  split
  · next v hfind =>
    have hv := List.mem_of_find?_eq_some hfind
    have hk : (s.vnode v).number = k := by simpa using List.find?_some hfind
    simp only [vnodeIncref, if_pos (h.refs.live v hv)]
    exact h.found hp hn hv hk
  · next hnone =>
    have hnew : ∀ v ∈ s.vnodes, (s.vnode v).number ≠ k := by simpa using hnone
    -- a semaphore that is named by an entry and has no vnode
    have hmade : ∀ o, s.sems k = some o → c ≠ .getroot →
        ((s.sem o).linked = true ∨ owns (.getvnode k c) = some o) →
        (∀ s' : State T, s'.dents = s.dents → s'.sems = s.sems → Half s' o ∨ (s.sem o).linked = true →
          (s'.vnode s.nextVnode).number = k → Facts s' (.gotvnode k c (.ok s.nextVnode))) →
        semarrayGet k (semfsVnodeCreate k { s with tablelock := some t }).2 = .ok o ∧
          ¬((semfsVnodeCreate k { s with tablelock := some t }).2.sem o).hasvnode = true ∧
          Steps (.ok (((semfsVnodeCreate k { s with tablelock := some t }).2.setSem o
            { (semfsVnodeCreate k { s with tablelock := some t }).2.sem o with hasvnode := true }).goto t
              (.gotvnode k c (.ok s.nextVnode)))) := by
      intro o hs hc hown hfacts
      refine ⟨semarrayGet_ok h hs rfl rfl rfl, ?_, h.made hp hn hnew hc hs hown hfacts⟩
      intro hv
      obtain ⟨v, hmem, hk⟩ := h.vnode_of_flag hs hv
      exact hnew v hmem hk
    split
    · cases c with
      | getroot =>
        obtain rfl : k = SEMFS_ROOTDIR := hf
        exact h.madeRoot hp hn hnew
      | lookup =>
        obtain ⟨i, hi⟩ := hf
        obtain ⟨o, hs, hl⟩ := h.entry_linked (t := t) (by rw [hp]; rfl) (by rw [hp]; rfl) hi
        obtain ⟨hget, hfirst, hsteps⟩ := hmade o hs (by simp) (.inl hl) (fun _ _ _ _ _ => trivial)
        simp only [if_neg (h.not_root hs), hget, if_neg hfirst]
        exact hsteps
      | creat i o =>
        obtain ⟨hi, hs⟩ := hf
        have hno : (s.sem o).linked = false := (h.reg.owned t o (by rw [hp]; rfl)).2.1
        have hfacts : ∀ s' : State T, s'.dents = s.dents → s'.sems = s.sems → Half s' o ∨ (s.sem o).linked = true →
            (s'.vnode s.nextVnode).number = k → Facts s' (.gotvnode k (.creat i o) (.ok s.nextVnode)) := by
          intro s' hd hk hhalf hnum
          refine ⟨by rwa [EntryAt, hd], by rw [hk, hs], ?_⟩
          rintro v ⟨⟩
          exact ⟨by simpa [hno] using hhalf, hnum⟩
        obtain ⟨hget, hfirst, hsteps⟩ := hmade o hs (by simp) (.inr rfl) hfacts
        simp only [if_neg (h.not_root hs), hget, if_neg hfirst]
        exact hsteps
    · cases c with
      | getroot | lookup =>
        exact h.quiet hp (h.dir.stay (by rw [hp]; rfl)) (h.tab_taken hn rfl) rfl rfl rfl rfl rfl rfl rfl trivial
      | creat i o =>
        exact h.quiet hp (h.dir.stay (by rw [hp]; rfl)) (h.tab_taken hn rfl) rfl rfl rfl rfl rfl rfl rfl
          ⟨hf.1, hf.2, fun v hv => by cases hv⟩

theorem gotvnode_steps {c : Caller} {r : Except Errno ℕ} (h : Inv s) (hp : s.place t = .gotvnode k c r) :
    Steps (gotvnode t k c r s) := by
  have hl := h.tab_eq hp rfl
  refine ensures_release hl ?_
  have hf : Facts s (.gotvnode k c r) := hp ▸ h.facts t
  cases c with
  | getroot =>
    cases r with
    | ok v => exact h.gives hp rfl rfl (h.dir.stay (by rw [hp]; rfl)) (h.tab_left hl rfl) rfl rfl rfl rfl rfl rfl trivial
    | error e => exact h.quiet hp (h.dir.stay (by rw [hp]; rfl)) (h.tab_left hl rfl) rfl rfl rfl rfl rfl rfl rfl trivial
  | lookup =>
    cases r <;>
      exact h.quiet hp (h.dir.stay (by rw [hp]; rfl)) (h.tab_left hl rfl) rfl rfl rfl rfl rfl rfl rfl trivial
  | creat i o =>
    obtain ⟨⟨d, hd, rfl⟩, hs, hok⟩ := hf
    have hin : inDir (s.place t) = true := by rw [hp]; rfl
    have hone : ∀ u, touches (s.place u) = some i → u = t := fun u hu => h.alone hin touches_outside hu
    cases r with
    | ok v =>
      obtain ⟨⟨hlive, hlinked, hv⟩, -⟩ := hok v rfl
      have hflags : (⟨(s.sem o).live, (s.sem o).hasvnode, true⟩ : Flags) = ⟨true, true, true⟩ := by rw [hlive, hv]
      have howns : owns (s.place t) = none := by rw [hp]; rfl
      simp only [if_pos hlive]
      refine h.buildSems hp rfl (flags_update ..) rfl rfl rfl rfl rfl rfl rfl (h.dir.stay (by rw [hp]; rfl))
        (h.tab_left hl rfl) (h.relock rfl (by rw [hp]; rfl)) ?_ ?_ ?_ trivial ?_
      · rw [role_same detached s.place (by rw [hp]; rfl)]
        show Registry _ _ (update _ o ⟨(s.sem o).live, (s.sem o).hasvnode, true⟩) _ _ _
        rw [hflags]
        exact h.reg.reflag hs (fun u hu => h.alone hin owns_outside hu) (.inr howns) (by rw [hp]; rfl)
          (.inr ⟨rfl, .inl rfl⟩)
      · exact h.direc.link (by rw [hp]; rfl) hone hd hs rfl
      · refine h.tied.keep (fun _ _ => rfl) ?_ (fun _ _ hk _ => hk)
        intro p
        by_cases hpo : p = o
        · subst hpo
          rw [update_self]
          rfl
        · rw [update_of_ne hpo]
      · exact h.bystanders (fun u hu => h.only_dir hin hu) (fun _ _ => rfl) (fun _ _ hk _ => hk)
    | error e =>
      refine h.buildSems hp rfl rfl rfl rfl rfl rfl rfl rfl rfl (h.dir.stay (by rw [hp]; rfl)) (h.tab_left hl rfl)
        (fun p => (h.locks p).stay (by rw [hp]; rfl)) ?_ (h.direc.clear (by rw [hp]; rfl) hone) h.tied ⟨hs, rfl⟩ ?_
      · rw [role_same owns s.place (by rw [hp]; rfl), role_same detached s.place (by rw [hp]; rfl)]
        exact h.reg
      · exact h.bystanders (fun u hu => h.only_dir hin hu) (fun _ _ => rfl) (fun _ _ hk _ => hk)

end OS161.SemDirectory
