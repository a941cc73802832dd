import OS161.SemPlaces

/-!
# Making a semaphore

`semfs_creat` up to the vnode, and its way back when something fails. Between two
steps the semaphore is kept by the thread alone.
-/

set_option autoImplicit false

namespace OS161.SemDirectory

open Function OS161.Vfs OS161.References OS161.Runs

variable {T : Type} [DecidableEq T] {s s' : State T} {t u : T} {x y : Place} {o k v : ℕ}

/-- Nothing else happens while a lock is not available. -/
abbrev Steps (x : Except Stop (State T)) : Prop := Ensures (fun e => e = .blocked) Inv x

theorem lookupDir_steps {name : Name} (h : Inv s) (hp : s.place t = .lookupDir name) :
    Steps (lookupDir t name s) := by
  refine ensures_acquire rfl (h.dir_ne hp rfl) ?_
  intro hd
  simp only
  split
  · next i k hs => exact h.takeDir hp hd rfl rfl rfl ⟨rfl, rfl, rfl⟩ ⟨rfl, rfl⟩ ⟨rfl, rfl⟩ ⟨i, search_some hs⟩
  · exact h.takeDir hp hd rfl rfl rfl ⟨rfl, rfl, rfl⟩ ⟨rfl, rfl⟩ ⟨rfl, rfl⟩ trivial

theorem removeDir_steps {name : Name} (h : Inv s) (hp : s.place t = .removeDir name) :
    Steps (removeDir t name s) := by
  refine ensures_acquire rfl (h.dir_ne hp rfl) ?_
  intro hd
  simp only
  split
  · next i k hs => exact h.takeDir hp hd rfl rfl rfl ⟨rfl, rfl, rfl⟩ ⟨rfl, rfl⟩ ⟨rfl, rfl⟩ (search_some hs)
  · exact h.takeDir hp hd rfl rfl rfl ⟨rfl, rfl, rfl⟩ ⟨rfl, rfl⟩ ⟨rfl, rfl⟩ trivial

/-- A step of a thread that goes on with the same roles, from one place of the
directory to the next. -/
theorem Inv.unlockTable (h : Inv s) (hp : s.place t = y) (hy : inTable y = true) (hx : inTable x = false)
    (hdir : inDir x = inDir y) (hl : lockOf x = lockOf y) (ho : owns x = owns y) (hd : detached x = detached y)
    (ht : touches x = touches y) (hh : hand x = hand y) (hg : gone x = none) (hg' : gone y = none)
    (hf : Facts s x) : Steps (unlockTable t x s) := by
  have hl' := h.tab_eq hp hy
  refine ensures_release hl' ?_
  exact h.quiet hp (h.dir.stay (by rw [hdir, hp])) (h.tab_left hl' hx) hl ho hd ht hh hg hg' hf

/-- A step that leaves the vnodes and the references to them as they are. -/
theorem Inv.buildSems (h : Inv s) (hp : s.place t = y) (hpl : s'.place = update s.place t x) {fl : ℕ → Flags}
    (hfl : (fun o => (s'.sem o).flags) = fl) (hv : s'.vnodes = s.vnodes) (hn : s'.vnode = s.vnode)
    (hnx : s'.nextVnode = s.nextVnode) (hhl : s'.held = s.held) (hh : hand x = hand y) (hg : gone x = none)
    (hg' : gone y = none) (hdir : Owner s'.dirlock (update (fun u => inDir (s.place u)) t (inDir x)))
    (htab : Owner s'.tablelock (update (fun u => inTable (s.place u)) t (inTable x)))
    (hlocks : ∀ o, Owner (s'.sem o).lock
      (update (fun u => decide (lockOf (s.place u) = some o)) t (decide (lockOf x = some o))))
    (hreg : Registry s'.sems s'.numSems fl s'.nextSem (update (fun u => owns (s.place u)) t (owns x))
      (update (fun u => detached (s.place u)) t (detached x)))
    (hdirec : Directory s'.dents s'.numDents s'.sems fl (update (fun u => touches (s.place u)) t (touches x)))
    (htied : Tied s.vnodes s.vnode s'.sems fl) (hx : Facts s' x)
    (hothers : ∀ u, u ≠ t → Facts s' (s.place u)) : Inv s' := by
  subst hp
  have hvn : ∀ v, hand x = some v → v ∈ s.vnodes := fun v hv => h.not_gone (hh ▸ hv) hg'
  refine h.build hpl hfl hdir htab hlocks hreg hdirec ?_ ?_ ?_ ?_ ?_ ?_ hx hothers
  · rw [hv, hn, hnx, hhl, role_same hand s.place hh]
    exact h.refs
  · rwa [hv, hn]
  · exact fun v hxv => .inr (hv ▸ hvn v hxv)
  · intro v hxv
    rw [hg] at hxv
    cases hxv
  · exact fun _ _ _ _ hm => hv ▸ hm
  · intro u v _ hu
    have hno := (h.out u v hu).1
    exact ⟨hv ▸ hno, fun hxv => hno (hvn v hxv)⟩

omit [DecidableEq T] in
theorem hand_of_uses (hy : uses y = some (v, o)) : hand y = some v ∧ gone y = none := by
  cases y <;> simp_all [uses, hand, gone]

omit [DecidableEq T] in
/-- Whoever uses a semaphore has a reference to its vnode. -/
theorem Inv.used (h : Inv s) (hu : uses (s.place u) = some (v, o)) :
    v ∈ s.vnodes ∧ s.sems (s.vnode v).number = some o ∧ (s.sem o).hasvnode = true := by
  obtain ⟨hh, hg⟩ := hand_of_uses hu
  have hv := h.not_gone hh hg
  have hf := h.facts u
  have hfact : (s.vnode v).number ≠ SEMFS_ROOTDIR ∧ s.sems (s.vnode v).number = some o := by
    cases hp : s.place u <;> simp_all [uses, Facts]
  obtain hroot | ⟨p, hk, hflag⟩ := h.tied.flagged v hv
  · exact absurd hroot hfact.1
  · obtain rfl : p = o := Option.some.inj (hk.symm.trans hfact.2)
    exact ⟨hv, hk, hflag⟩

omit [DecidableEq T] in
/-- The threads without `semfs_dirlock` only rely on semaphores with vnodes. -/
theorem Inv.bystanders (h : Inv s) (hout : ∀ u, u ≠ t → inDir (s.place u) = false)
    (hn : ∀ v, (s.vnode v).live = true → (s'.vnode v).number = (s.vnode v).number)
    (hk : ∀ k o, s.sems k = some o → (s.sem o).hasvnode = true → s'.sems k = some o) :
    ∀ u, u ≠ t → Facts s' (s.place u) := by
  intro u hu
  obtain ⟨-, -, -, hr, hh⟩ := roles_outside (hout u hu)
  refine (h.facts u).keep ?_ ?_ ?_ ?_ ?_
  · simp [hout u hu]
  · exact fun v hv => hn v (h.refs.inHand u v hv)
  · simp [hr]
  · intro v o huse hs
    exact hk _ o hs (h.used huse).2.2
  · simp [hh]

omit [DecidableEq T] in
/-- Nobody holds the lock of a semaphore that is gone. -/
theorem Inv.lock_live (h : Inv s) (hl : lockOf (s.place u) = some o) : (s.sem o).live = true := by
  have howned := h.reg.owned u o
  have hf := h.facts u
  cases hp : s.place u with
  | removeTable i k p | removeTabled i k p =>
    rw [hp] at hl howned
    cases hl
    exact (howned rfl).1
  | removeUnlock i k p d =>
    rw [hp] at hl howned hf
    cases hl
    cases d with
    | true => exact (howned rfl).1
    | false => exact hf.2.2.1
  | useUnlock v p =>
    rw [hp] at hl hf
    cases hl
    exact h.reg.live _ _ hf.2
  | _ => simp [hp, lockOf] at hl

omit [DecidableEq T] in
theorem Inv.dead_unlocked (h : Inv s) (ho : (s.sem o).live = false) : (s.sem o).lock = none := by
  by_contra hne
  obtain ⟨u, hu⟩ := Option.ne_none_iff_exists'.mp hne
  have hl := (h.locks o u).mp hu
  simp only [decide_eq_true_eq] at hl
  simp [h.lock_live hl] at ho

omit [DecidableEq T] in
theorem flags_update (sem : ℕ → Sem T) (o : ℕ) (m : Sem T) :
    (fun p => (update sem o m p).flags) = update (fun p => (sem p).flags) o m.flags :=
  comp_update Sem.flags sem o m

/-- A change of a semaphore that is not of its lock. -/
theorem Inv.relock (h : Inv s) {m : Sem T} (hm : m.lock = (s.sem o).lock) (hl : lockOf x = lockOf (s.place t)) (p : ℕ) :
    Owner (update s.sem o m p).lock
      (update (fun u => decide (lockOf (s.place u) = some p)) t (decide (lockOf x = some p))) := by
  have hsame : (update s.sem o m p).lock = (s.sem p).lock := by
    by_cases hpo : p = o
    · subst hpo
      rw [update_self, hm]
    · rw [update_of_ne hpo]
  rw [hsame]
  exact (h.locks p).stay (by rw [hl])

theorem creatDir_steps {name : Name} {excl : Bool} {mem : Memory} (h : Inv s) (hp : s.place t = .creatDir name excl) :
    Steps (creatDir t name excl mem s) := by
  refine ensures_acquire rfl (h.dir_ne hp rfl) ?_
  intro hd
  simp only
  split
  · next i k hs =>
    cases excl with
    | true => exact h.takeDir hp hd rfl rfl rfl ⟨rfl, rfl, rfl⟩ ⟨rfl, rfl⟩ ⟨rfl, rfl⟩ trivial
    | false => exact h.takeDir hp hd rfl rfl rfl ⟨rfl, rfl, rfl⟩ ⟨rfl, rfl⟩ ⟨rfl, rfl⟩ ⟨i, search_some hs⟩
  · split
    · have hdead : (s.sem s.nextSem).live = false := by
        by_contra hno
        exact absurd (h.reg.fresh s.nextSem (Bool.of_not_eq_false hno)) (Nat.lt_irrefl _)
      have hflags := h.reg.dead s.nextSem hdead
      have hdir : Owner (some t) (update (fun u => inDir (s.place u)) t true) := Owner.take (hd ▸ h.dir) t
      refine h.buildSems hp rfl (flags_update ..) rfl rfl rfl rfl rfl rfl rfl hdir (h.tab.stay (by rw [hp]; rfl))
        ?_ ?_ ?_ ?_ ?_ ?_
      · exact h.relock (h.dead_unlocked hdead).symm (by rw [hp]; rfl)
      · exact h.reg.alloc (by rw [hp]; rfl) (by rw [hp]; rfl)
      · rw [role_same touches s.place (by rw [hp]; rfl)]
        refine h.direc.keep ?_
        intro k o hk hl
        have hne : o ≠ s.nextSem := by
          rintro rfl
          simp [hflags.1] at hl
        exact ⟨hk, by rwa [update_of_ne hne]⟩
      · refine h.tied.keep (fun _ _ => rfl) ?_ (fun _ _ hk _ => hk)
        intro o
        by_cases ho : o = s.nextSem
        · subst ho
          rw [update_self, hflags.2]
          rfl
        · rw [update_of_ne ho]
      · exact firstEmpty_empty s
      · exact h.bystanders (fun u _ => h.no_dir hd u) (fun _ _ => rfl) (fun _ _ hk _ => hk)
    · exact h.takeDir hp hd rfl rfl rfl ⟨rfl, rfl, rfl⟩ ⟨rfl, rfl⟩ ⟨rfl, rfl⟩ trivial

omit [DecidableEq T] in
theorem insert_cases (mem : Memory) (hsize : s.numSems ≤ SEMFS_ROOTDIR)
    (hbound : ∀ k o, s.sems k = some o → k < s.numSems) (o : ℕ) :
    (∃ e, semfsSemInsert o mem s = (.error e, s)) ∨
    ∃ k n, semfsSemInsert o mem s = (.ok k, { s with sems := update s.sems k (some o), numSems := n }) ∧
      s.sems k = none ∧ s.numSems ≤ n ∧ k < n ∧ n ≤ SEMFS_ROOTDIR := by
  simp only [semfsSemInsert]
  split
  · exact .inl ⟨_, rfl⟩
  · next hfull =>
    split
    · next k hk =>
      have hmem := List.mem_of_find?_eq_some hk
      have hnone := List.find?_some hk
      exact .inr ⟨k, s.numSems, rfl, by simpa using hnone, le_refl _, by simpa using hmem, hsize⟩
    · split
      · refine .inr ⟨s.numSems, s.numSems+1, rfl, ?_, Nat.le_succ _, Nat.lt_succ_self _, by omega⟩
        by_contra hne
        obtain ⟨p, hp⟩ := Option.ne_none_iff_exists'.mp hne
        exact absurd (hbound _ p hp) (Nat.lt_irrefl _)
      · exact .inl ⟨_, rfl⟩

omit [DecidableEq T] in
/-- In the directory there is one thread at a time. -/
theorem Inv.alone (h : Inv s) (hin : inDir (s.place t) = true) {f : Place → Option ℕ}
    (hf : ∀ y, inDir y = false → f y = none) {o : ℕ} (hu : f (s.place u) = some o) : u = t := by
  by_contra hne
  simp [hf _ (h.only_dir hin hne)] at hu

theorem owns_outside : ∀ y, inDir y = false → owns y = none := fun _ hy => (roles_outside hy).1

theorem detached_outside : ∀ y, inDir y = false → detached y = none := fun _ hy => (roles_outside hy).2.1

theorem touches_outside : ∀ y, inDir y = false → touches y = none := fun _ hy => (roles_outside hy).2.2.1

theorem creatInsert_steps {name : Name} {e : Option ℕ} {mem : Memory} (h : Inv s)
    (hp : s.place t = .creatInsert name e o) : Steps (creatInsert t name e o mem s) := by
  refine ensures_acquire rfl (h.tab_ne hp rfl) ?_
  intro hn
  have hin : inDir (s.place t) = true := by rw [hp]; rfl
  have hf : Facts s (.creatInsert name e o) := hp ▸ h.facts t
  have hcases := @insert_cases _ { s with tablelock := some t } mem h.reg.size h.reg.bound o
  obtain ⟨err, hr⟩ | ⟨k, n, hr, hk, hnum, hlt, hsize⟩ := hcases
  · simp only [hr]
    exact h.quiet hp (h.dir.stay (by rw [hp]; rfl)) (h.tab_taken hn rfl) rfl rfl rfl rfl rfl rfl rfl
      ⟨hf, fun k hk => by cases hk⟩
  · simp only [hr]
    have hkeep : ∀ j p, s.sems j = some p → update s.sems k (some o) j = some p := by
      intro j p hj
      have hne : j ≠ k := by
        rintro rfl
        exact absurd (hj.symm.trans hk) (by simp)
      rwa [update_of_ne hne]
    refine h.buildSems hp rfl rfl rfl rfl rfl rfl rfl rfl rfl (h.dir.stay (by rw [hp]; rfl)) (h.tab_taken hn rfl)
      (fun p => (h.locks p).stay (by rw [hp]; rfl)) ?_ ?_ ?_ ?_ ?_
    · rw [role_same owns s.place (by rw [hp]; rfl)]
      exact h.reg.insert (by rw [hp]; rfl) hk hnum hlt hsize (fun u hu => h.alone hin detached_outside hu)
    · rw [role_same touches s.place (by rw [hp]; rfl)]
      exact h.direc.keep (fun j p hj hl => ⟨hkeep j p hj, hl⟩)
    · exact h.tied.keep (fun _ _ => rfl) (fun _ => rfl) (fun j p hj _ => hkeep j p hj)
    · refine ⟨hf, ?_⟩
      rintro j ⟨⟩
      exact update_self ..
    · exact h.bystanders (fun u hu => h.only_dir hin hu) (fun _ _ => rfl) (fun j p hj _ => hkeep j p hj)

/-- A thread destroys the semaphore that it has taken out of the table. -/
theorem Inv.destroyed (h : Inv s) (hd : detached (s.place t) = some o) (hin : inDir (s.place t) = true) {fl : Flags}
    (hfl : fl = ⟨false, false, false⟩) :
    (s.sem o).flags = ⟨true, false, false⟩ ∧
    Registry s.sems s.numSems (update (fun p => (s.sem p).flags) o fl) s.nextSem
      (update (fun u => owns (s.place u)) t none) (update (fun u => detached (s.place u)) t none) ∧
    Directory s.dents s.numDents s.sems (update (fun p => (s.sem p).flags) o fl) (fun u => touches (s.place u)) ∧
    Tied s.vnodes s.vnode s.sems (update (fun p => (s.sem p).flags) o fl) := by
  obtain ⟨ho, hno⟩ := h.reg.apart t o hd
  have howned := h.reg.owned t o ho
  have hflags : (s.sem o).flags = ⟨true, false, false⟩ := by
    cases hfo : (s.sem o).flags
    simp_all
  have hne : ∀ k p, s.sems k = some p → p ≠ o := by
    rintro k p hk rfl
    exact hno k hk
  refine ⟨hflags, ?_, ?_, ?_⟩
  · have hreg := h.reg.destroy hd (fun u hu => h.alone hin owns_outside hu)
    rwa [hflags, ← hfl] at hreg
  · exact h.direc.keep (fun k p hk hlk => ⟨hk, by rwa [update_of_ne (hne k p hk)]⟩)
  · refine h.tied.keep (fun _ _ => rfl) ?_ (fun _ _ hk _ => hk)
    intro p
    by_cases hpo : p = o
    · subst hpo
      rw [update_self, hflags, hfl]
    · rw [update_of_ne hpo]

omit [DecidableEq T] in
theorem uses_of_lockOf (hy : inDir y = false) (hl : lockOf y = some o) : ∃ v, uses y = some (v, o) := by
  cases y <;> simp_all [inDir, lockOf, uses]

omit [DecidableEq T] in
/-- What a thread owns, nobody else has locked. -/
theorem Inv.owned_unlocked (h : Inv s) (ho : owns (s.place t) = some o) (hin : inDir (s.place t) = true)
    (hu : u ≠ t) : lockOf (s.place u) ≠ some o := by
  intro hl
  obtain ⟨v, huse⟩ := uses_of_lockOf (h.only_dir hin hu) hl
  have hv := (h.used huse).2.2
  have hno : (s.sem o).hasvnode = false := (h.reg.owned t o ho).2.2
  simp [hno] at hv

omit [DecidableEq T] in
theorem Inv.unlocked (h : Inv s) (ho : owns (s.place t) = some o) (hin : inDir (s.place t) = true)
    (ht : lockOf (s.place t) = none) : (s.sem o).lock = none := by
  by_contra hne
  obtain ⟨u, hu⟩ := Option.ne_none_iff_exists'.mp hne
  have hl : lockOf (s.place u) = some o := by simpa using (h.locks o u).mp hu
  by_cases hut : u = t
  · subst hut
    simp [ht] at hl
  · exact h.owned_unlocked ho hin hut hl

omit [DecidableEq T] in
theorem semDestroy_ok (hlive : (s.sem o).live = true) (hl : (s.sem o).lock = none) :
    semfsSemDestroy o s = .ok (s.setSem o { s.sem o with live := false }) := by
  simp [semfsSemDestroy, hlive, hl]

/-- A failed `semfs_creat` destroys the semaphore it has made. -/
theorem Inv.uncreate (h : Inv s) (hp : s.place t = y) (hd : detached y = some o) (hl : s.tablelock = some t)
    (hin : inDir y = true) (hno : lockOf y = none) (ht : touches y = none) (hh : hand y = none) (hg : gone y = none)
    {c : Result} (hc : hand (.unlockDir c) = none) :
    semfsSemDestroy o { s with tablelock := none } =
      .ok ({ s with tablelock := none }.setSem o { s.sem o with live := false }) ∧
    Inv (({ s with tablelock := none }.setSem o { s.sem o with live := false }).goto t (.unlockDir c)) := by
  subst hp
  have ho := (h.reg.apart t o hd).1
  have hlock := h.unlocked ho hin hno
  obtain ⟨hflags, hreg, hdirec, htied⟩ := h.destroyed hd hin
    (show ({ s.sem o with live := false } : Sem T).flags = ⟨false, false, false⟩ by
      obtain ⟨-, hlk, hv⟩ := h.reg.owned t o ho
      simp only [Sem.flags] at hlk hv ⊢
      rw [hlk, hv])
  have hlive : (s.sem o).live = true := congrArg Flags.live hflags
  refine ⟨semDestroy_ok (s := { s with tablelock := none }) hlive hlock, ?_⟩
  refine h.buildSems rfl rfl (flags_update ..) rfl rfl rfl rfl (hc.trans hh.symm) rfl hg (h.dir.stay hin.symm)
    (h.tab_left hl rfl) ?_ hreg ?_ htied trivial ?_
  · exact h.relock rfl hno.symm
  · rw [role_same touches s.place (x := .unlockDir c) ht.symm]
    exact hdirec
  · exact h.bystanders (fun u hu => h.only_dir hin hu) (fun _ _ => rfl) (fun _ _ hk _ => hk)

/-- A failed allocation takes the thread back. -/
theorem creatInserted_steps {name : Name} {e : Option ℕ} {c : Except Errno ℕ} {mem : Memory} (h : Inv s)
    (hp : s.place t = .creatInserted name e o c) : Steps (creatInserted t name e o c mem s) := by
  have hl := h.tab_eq hp rfl
  refine ensures_release hl ?_
  cases c with
  | error err =>
    obtain ⟨hd, hinv⟩ := h.uncreate (c := .error err) hp rfl hl rfl rfl rfl rfl rfl rfl
    simp only [hd]
    exact hinv
  | ok k =>
    obtain ⟨hempty, hk⟩ : Facts s (.creatInserted name e o (.ok k)) := hp ▸ h.facts t
    have hsems := hk k rfl
    have hback : ∀ c : Result, hand (.unlockDir c) = none →
        Inv ({ s with tablelock := none }.goto t (.creatUninsert k o c)) := fun c hc =>
      h.quiet hp (h.dir.stay (by rw [hp]; rfl)) (h.tab_left hl rfl) rfl rfl rfl rfl rfl rfl rfl ⟨hsems, hc⟩
    have henter : ∀ i n, s.dents i = none → s.numDents ≤ n → i < n →
        Inv ({ s with
          tablelock := none
          dents := update s.dents i (some ⟨name, k⟩)
          numDents := n }.goto t (.getvnode k (.creat i o))) := by
      intro i n hi hn hlt
      have hin : inDir (s.place t) = true := by rw [hp]; rfl
      have hnone : ∀ u, touches (s.place u) = none := by
        intro u
        by_cases hu : u = t
        · rw [hu, hp]
          rfl
        · exact touches_outside _ (h.only_dir hin hu)
      refine h.buildSems hp rfl rfl rfl rfl rfl rfl rfl rfl rfl (h.dir.stay (by rw [hp]; rfl)) (h.tab_left hl rfl)
        (fun p => (h.locks p).stay (by rw [hp]; rfl)) ?_ ?_ h.tied ⟨⟨_, update_self .., rfl⟩, hsems⟩ ?_
      · rw [role_same owns s.place (by rw [hp]; rfl), role_same detached s.place (by rw [hp]; rfl)]
        exact h.reg
      · exact h.direc.enter hn hlt hnone hsems (h.reg.owned t o (by rw [hp]; rfl)).2.1
      · exact h.bystanders (fun u hu => h.only_dir hin hu) (fun _ _ => rfl) (fun _ _ hk _ => hk)
    simp only
    split
    · split
      · next i =>
        obtain ⟨hi, hlt⟩ := hempty i rfl
        exact henter i s.numDents hi (le_refl _) hlt
      · split
        · refine henter s.numDents (s.numDents+1) ?_ (Nat.le_succ _) (Nat.lt_succ_self _)
          by_contra hne
          obtain ⟨d, hd⟩ := Option.ne_none_iff_exists'.mp hne
          exact absurd (h.direc.bound _ d hd) (Nat.lt_irrefl _)
        · exact hback _ rfl
    · exact hback _ rfl

theorem creatUninserted_steps {c : Result} (h : Inv s) (hp : s.place t = .creatUninserted o c) :
    Steps (creatUninserted t o c s) := by
  have hc : Facts s (.creatUninserted o c) := hp ▸ h.facts t
  have hl := h.tab_eq hp rfl
  refine ensures_release hl ?_
  obtain ⟨hd, hinv⟩ := h.uncreate hp rfl hl rfl rfl rfl rfl rfl hc
  rw [hd]
  exact hinv

/-- The thread that owns a semaphore takes it out of the table. -/
theorem Inv.withdrawn (h : Inv s) (hp : s.place t = y) (hn : s.tablelock = none) (hin : inDir y = true)
    (hy : owns y = some o) (hd : detached y = none) (hs : s.sems k = some o) (hx : inDir x = true)
    (hxt : inTable x = true) (hl : lockOf x = lockOf y) (ho : owns x = owns y) (hd' : detached x = some o)
    (ht : touches x = touches y) (hh : hand x = hand y) (hg : gone x = none) (hg' : gone y = none)
    (hf : Facts { s with tablelock := some t, sems := update s.sems k none } x) :
    Inv ({ s with tablelock := some t, sems := update s.sems k none }.goto t x) := by
  subst hp
  have howned := h.reg.owned t o hy
  have hkeep : ∀ j p, s.sems j = some p → (s.sem p).linked = true ∨ (s.sem p).hasvnode = true →
      update s.sems k none j = some p := by
    intro j p hj hp
    have hne : j ≠ k := by
      rintro rfl
      obtain rfl : p = o := Option.some.inj (hj.symm.trans hs)
      have h1 : (s.sem p).linked = false := howned.2.1
      have h2 : (s.sem p).hasvnode = false := howned.2.2
      simp [h1, h2] at hp
    rwa [update_of_ne hne]
  refine h.buildSems rfl rfl rfl rfl rfl rfl rfl hh hg hg' (h.dir.stay (hx.trans hin.symm)) (h.tab_taken hn hxt)
    (fun p => (h.locks p).stay (by rw [hl])) ?_ ?_ ?_ ?_ ?_
  · rw [role_same owns s.place ho, hd']
    exact h.reg.withdraw hy hs hd
  · rw [role_same touches s.place ht]
    exact h.direc.keep (fun j p hj hl => ⟨hkeep j p hj (.inl hl), hl⟩)
  · exact h.tied.keep (fun _ _ => rfl) (fun _ => rfl) (fun j p hj hv => hkeep j p hj (.inr hv))
  · exact hf.keep (fun _ => ⟨rfl, rfl⟩) (fun _ _ => rfl) (fun _ _ _ hk => hk) (fun _ _ _ hk => hk) (fun _ _ hk => hk)
  · exact h.bystanders (fun u hu => h.only_dir hin hu) (fun _ _ => rfl) (fun j p hj hv => hkeep j p hj (.inr hv))

theorem creatUninsert_steps {c : Result} (h : Inv s) (hp : s.place t = .creatUninsert k o c) :
    Steps (creatUninsert t k o c s) := by
  refine ensures_acquire rfl (h.tab_ne hp rfl) ?_
  intro hn
  obtain ⟨hs, hc⟩ : Facts s (.creatUninsert k o c) := hp ▸ h.facts t
  exact h.withdrawn hp hn rfl rfl rfl hs rfl rfl rfl rfl rfl rfl rfl rfl rfl hc

theorem removeTable_steps {i : ℕ} (h : Inv s) (hp : s.place t = .removeTable i k o) :
    Steps (removeTable t i k o s) := by
  refine ensures_acquire rfl (h.tab_ne hp rfl) ?_
  intro hn
  obtain ⟨hentry, hs⟩ : Facts s (.removeTable i k o) := hp ▸ h.facts t
  exact h.withdrawn hp hn rfl rfl rfl hs rfl rfl rfl rfl rfl rfl rfl rfl rfl hentry

/-- A step that leaves the semaphores and the directory as they are. -/
theorem Inv.buildRefs (h : Inv s) (hp : s.place t = y) {d tb : Option T} {table : List ℕ} {vnode : ℕ → Vnode}
    {nx : ℕ} {held : ℕ → ℕ} (hdir : Owner d (update (fun u => inDir (s.place u)) t (inDir x)))
    (htab : Owner tb (update (fun u => inTable (s.place u)) t (inTable x)))
    (hl : lockOf x = lockOf y) (ho : owns x = owns y) (hd : detached x = detached y) (ht : touches x = touches y)
    (hrefs : Balanced table vnode nx held (update (fun u => hand (s.place u)) t (hand x)))
    (htied : Tied table vnode s.sems (fun o => (s.sem o).flags))
    (hin : ∀ v, hand x = some v → v ∈ table) (hg : gone x = none)
    (hkept : ∀ v, (s.vnode v).live = true → (v ∈ table ↔ v ∈ s.vnodes) ∧ (vnode v).number = (s.vnode v).number)
    (hgone : ∀ v, (∃ u, u ≠ t ∧ gone (s.place u) = some v) → hand x ≠ some v)
    (hx : Facts { s with vnode := vnode } x) :
    Inv ({ s with
      dirlock := d
      tablelock := tb
      vnodes := table
      vnode := vnode
      nextVnode := nx
      held := held }.goto t x) := by
  subst hp
  refine h.build rfl rfl hdir htab (fun p => (h.locks p).stay (by rw [hl])) ?_ ?_ hrefs htied
    (fun v hv => .inr (hin v hv)) ?_ ?_ ?_ ?_ ?_
  · rw [role_same owns s.place ho, role_same detached s.place hd]
    exact h.reg
  · rw [role_same touches s.place ht]
    exact h.direc
  · intro v hv
    rw [hg] at hv
    cases hv
  · exact fun u v _ hu hv => ((hkept v (h.refs.inHand u v hu)).1).mpr hv
  · intro u v hut hu
    have hhand : hand (s.place u) = some v := by
      cases hp : s.place u <;> simp_all [gone, hand]
    exact ⟨fun hv => (h.out u v hu).1 ((hkept v (h.refs.inHand u v hhand)).1.mp hv), hgone v ⟨u, hut, hu⟩⟩
  · exact hx.keep (fun _ => ⟨rfl, rfl⟩) (fun _ _ => rfl) (fun _ _ _ hk => hk) (fun _ _ _ hk => hk) (fun _ _ hk => hk)
  · intro u _
    exact (h.facts u).keep (fun _ => ⟨rfl, rfl⟩) (fun v hv => (hkept v (h.refs.inHand u v hv)).2)
      (fun _ _ _ hk => hk) (fun _ _ _ hk => hk) (fun _ _ hk => hk)

/-- A reference goes from the thread to its caller. -/
theorem Inv.gives (h : Inv s) (hp : s.place t = y) (hv : hand y = some v) (hg' : gone y = none) {d tb : Option T}
    (hdir : Owner d (update (fun u => inDir (s.place u)) t (inDir x)))
    (htab : Owner tb (update (fun u => inTable (s.place u)) t (inTable x)))
    (hl : lockOf x = lockOf y) (ho : owns x = owns y) (hd : detached x = detached y) (ht : touches x = touches y)
    (hh : hand x = none) (hg : gone x = none) (hx : Facts s x) :
    Inv ({ s with
      dirlock := d
      tablelock := tb
      held := update s.held v (s.held v+1) }.goto t x) := by
  subst hp
  refine h.buildRefs rfl hdir htab hl ho hd ht ?_ h.tied (by simp [hh]) hg (fun _ _ => ⟨Iff.rfl, rfl⟩) (by simp [hh]) hx
  rw [hh]
  exact h.refs.give (h.not_gone hv hg') hv

theorem unlockDir_steps {c : Result} (h : Inv s) (hp : s.place t = .unlockDir c) : Steps (unlockDir t c s) := by
  have hl := h.dir_eq hp rfl
  refine ensures_release hl ?_
  have htab : Owner s.tablelock (update (fun u => inTable (s.place u)) t false) := h.tab.stay (by rw [hp]; rfl)
  match c with
  | .ok (some v) =>
    exact h.gives hp rfl rfl (h.dir_left hl rfl) htab rfl rfl rfl rfl rfl rfl trivial
  | .ok none => exact h.quiet hp (h.dir_left hl rfl) htab rfl rfl rfl rfl rfl rfl rfl trivial
  | .error e => exact h.quiet hp (h.dir_left hl rfl) htab rfl rfl rfl rfl rfl rfl rfl trivial

end OS161.SemDirectory
