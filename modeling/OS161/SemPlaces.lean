import OS161.SemRegistry

/-!
# The places of the threads

What the threads at each place have and rely on. The one with `semfs_dirlock` is
the only one that changes entries and makes semaphores.
-/

set_option autoImplicit false

namespace OS161.SemDirectory

open Function OS161.Vfs OS161.References OS161.Runs

/-- The places with `semfs_dirlock`. -/
def inDir : Place → Bool
  | .creatInsert .. | .creatInserted .. | .creatUninsert .. | .creatUninserted .. | .unlockDir _ => true
  | .getvnode _ c | .gotvnode _ c _ => c != .getroot
  | .removeGet .. | .removeGot .. | .removeLock .. | .removeTable .. | .removeTabled .. | .removeUnlock .. => true
  | _ => false

/-- The places with `semfs_tablelock`. -/
def inTable : Place → Bool
  | .creatInserted .. | .gotvnode .. | .creatUninserted .. | .removeGot .. | .removeTabled .. => true
  | .reclaimBusy | .reclaimed _ | .useGot .. => true
  | _ => false

/-- The semaphore whose `sems_lock` the thread has. -/
def lockOf : Place → Option ℕ
  | .removeTable _ _ o | .removeTabled _ _ o | .removeUnlock _ _ o _ | .useUnlock _ o => some o
  | _ => none

/-- The vnode that the thread has a reference to. -/
def hand : Place → Option ℕ
  | .gotvnode _ _ (.ok v) | .unlockDir (.ok (some v)) => some v
  | .reclaim v | .reclaimed v => some v
  | .useGet v | .useGot v _ | .useLock v _ | .useUnlock v _ => some v
  | _ => none

/-- The vnode that the thread has taken out of the table. -/
def gone : Place → Option ℕ
  | .reclaimed v => some v
  | _ => none

/-- The semaphore that only this thread keeps. -/
def owns : Place → Option ℕ
  | .creatInsert _ _ o | .creatInserted _ _ o _ | .creatUninsert _ o _ | .creatUninserted o _ => some o
  | .getvnode _ (.creat _ o) | .gotvnode _ (.creat _ o) (.error _) => some o
  | .removeTable _ _ o | .removeTabled _ _ o | .removeUnlock _ _ o true => some o
  | _ => none

def detached : Place → Option ℕ
  | .creatInsert _ _ o | .creatInserted _ _ o (.error _) | .creatUninserted o _ => some o
  | .removeTabled _ _ o | .removeUnlock _ _ o true => some o
  | _ => none

/-- The entry that the thread has made and not linked, or unlinked and not
cleared. -/
def touches : Place → Option ℕ
  | .getvnode _ (.creat i _) | .gotvnode _ (.creat i _) _ => some i
  | .removeTable i _ _ | .removeTabled i _ _ | .removeUnlock i _ _ _ => some i
  | _ => none

variable {T : Type}

def EntryAt (s : State T) (i k : ℕ) : Prop := ∃ d, s.dents i = some d ∧ d.semnum = k

def EmptyAt (s : State T) (e : Option ℕ) : Prop := ∀ i, e = some i → s.dents i = none ∧ i < s.numDents

/-- It is not in the directory, but has a vnode. -/
def Half (s : State T) (o : ℕ) : Prop :=
  (s.sem o).live = true ∧ (s.sem o).linked = false ∧ (s.sem o).hasvnode = true

/-- What a thread knows where it is. -/
def Facts (s : State T) : Place → Prop
  | .creatInsert _ e _ => EmptyAt s e
  | .creatInserted _ e o r => EmptyAt s e ∧ ∀ k, r = .ok k → s.sems k = some o
  | .getvnode k .getroot => k = SEMFS_ROOTDIR
  | .getvnode k .lookup => ∃ i, EntryAt s i k
  | .getvnode k (.creat i o) => EntryAt s i k ∧ s.sems k = some o
  | .gotvnode k (.creat i o) r => EntryAt s i k ∧ s.sems k = some o ∧
      ∀ v, r = .ok v → Half s o ∧ (s.vnode v).number = k
  | .creatUninsert k o r => s.sems k = some o ∧ hand (.unlockDir r) = none
  | .creatUninserted _ r => hand (.unlockDir r) = none
  | .removeGet i k => EntryAt s i k
  | .removeGot i k o | .removeLock i k o | .removeTable i k o => EntryAt s i k ∧ s.sems k = some o
  | .removeTabled i k _ | .removeUnlock i k _ true => EntryAt s i k
  | .removeUnlock i k o false => EntryAt s i k ∧ s.sems k = some o ∧ Half s o
  | .useGet v => (s.vnode v).number ≠ SEMFS_ROOTDIR
  | .useGot v o | .useLock v o | .useUnlock v o =>
    (s.vnode v).number ≠ SEMFS_ROOTDIR ∧ s.sems (s.vnode v).number = some o
  | _ => True

/-- Exactly the threads at such a place have the lock. -/
def Owner (lock : Option T) (at' : T → Bool) : Prop := ∀ u, lock = some u ↔ at' u = true

structure Inv (s : State T) : Prop where
  dir : Owner s.dirlock (fun u => inDir (s.place u))
  tab : Owner s.tablelock (fun u => inTable (s.place u))
  locks : ∀ o, Owner (s.sem o).lock (fun u => decide (lockOf (s.place u) = some o))
  reg : Registry s.sems s.numSems (fun o => (s.sem o).flags) s.nextSem (fun u => owns (s.place u))
    (fun u => detached (s.place u))
  direc : Directory s.dents s.numDents s.sems (fun o => (s.sem o).flags) (fun u => touches (s.place u))
  refs : Balanced s.vnodes s.vnode s.nextVnode s.held (fun u => hand (s.place u))
  tied : Tied s.vnodes s.vnode s.sems (fun o => (s.sem o).flags)
  loaded : ∀ u v, hand (s.place u) = some v → gone (s.place u) = some v ∨ v ∈ s.vnodes
  out : ∀ u v, gone (s.place u) = some v → v ∉ s.vnodes ∧ ∀ w, hand (s.place w) = some v → w = u
  facts : ∀ u, Facts s (s.place u)

variable [DecidableEq T] {s s' : State T} {t u : T} {x y : Place} {o k v : ℕ}

theorem Owner.take {at' : T → Bool} (h : Owner none at') (t : T) : Owner (some t) (update at' t true) := by
  intro u
  have hu : at' u = false := by simpa using mt (h u).mpr (by simp)
  by_cases hut : u = t
  · simp [hut]
  · simp [update_of_ne hut, hu, Ne.symm hut]

theorem Owner.leave {at' : T → Bool} (h : Owner (some t) at') : Owner none (update at' t false) := by
  intro u
  by_cases hut : u = t
  · simp [hut]
  · simpa [update_of_ne hut, Ne.symm hut] using (h u).symm

theorem Owner.stay {lock : Option T} {at' : T → Bool} (h : Owner lock at') {b : Bool} (hb : b = at' t) :
    Owner lock (update at' t b) := by
  rwa [hb, update_eq_self]

omit [DecidableEq T] in
theorem Owner.same {lock : Option T} {at' : T → Bool} (h : Owner lock at') (ht : at' t = true) (hu : at' u = true) :
    u = t :=
  Option.some.inj (((h u).mpr hu).symm.trans ((h t).mpr ht))

/-- The role that a thread plays in its new place. -/
theorem role_update {α : Type} (f : Place → α) (place : T → Place) (t : T) (x : Place) :
    (fun u => f (update place t x u)) = update (fun u => f (place u)) t (f x) :=
  comp_update f place t x

theorem role_same {α : Type} (f : Place → α) (place : T → Place) {t : T} {x : Place} (hx : f x = f (place t)) :
    update (fun u => f (place u)) t (f x) = fun u => f (place u) := by
  rw [hx]
  exact update_eq_self t _

/-- The semaphores a thread reads from the table stay there while it relies on
them. -/
def refers : Place → Option (ℕ × ℕ)
  | .creatInserted _ _ o (.ok k) | .creatUninsert k o _ => some (k, o)
  | .getvnode k (.creat _ o) | .gotvnode k (.creat _ o) _ => some (k, o)
  | .removeGot _ k o | .removeLock _ k o | .removeTable _ k o | .removeUnlock _ k o false => some (k, o)
  | _ => none

def uses : Place → Option (ℕ × ℕ)
  | .useGot v o | .useLock v o | .useUnlock v o => some (v, o)
  | _ => none

def halves : Place → Option ℕ
  | .gotvnode _ (.creat _ o) (.ok _) | .removeUnlock _ _ o false => some o
  | _ => none

omit [DecidableEq T] in
theorem Facts.keep (h : Facts s y) (hd : inDir y = true → s'.dents = s.dents ∧ s'.numDents = s.numDents)
    (hn : ∀ v, hand y = some v → (s'.vnode v).number = (s.vnode v).number)
    (hr : ∀ k o, refers y = some (k, o) → s.sems k = some o → s'.sems k = some o)
    (hu : ∀ v o, uses y = some (v, o) → s.sems (s.vnode v).number = some o →
      s'.sems (s.vnode v).number = some o)
    (hh : ∀ o, halves y = some o → Half s o → Half s' o) : Facts s' y := by
  have hentry : inDir y = true → ∀ i k, EntryAt s i k → EntryAt s' i k := by
    rintro hy i k ⟨d, hi, hk⟩
    exact ⟨d, by rw [(hd hy).1, hi], hk⟩
  have hempty : inDir y = true → ∀ e, EmptyAt s e → EmptyAt s' e := by
    intro hy e he i hi
    rw [(hd hy).1, (hd hy).2]
    exact he i hi
  cases y with
  | creatInsert name e o => exact hempty rfl e h
  | creatInserted name e o r =>
    cases r with
    | error err => exact ⟨hempty rfl e h.1, fun k hk => by cases hk⟩
    | ok k =>
      refine ⟨hempty rfl e h.1, ?_⟩
      rintro j ⟨⟩
      exact hr k o rfl (h.2 k rfl)
  | getvnode k c =>
    cases c with
    | getroot => exact h
    | lookup =>
      obtain ⟨i, hi⟩ := h
      exact ⟨i, hentry rfl i k hi⟩
    | creat i o => exact ⟨hentry rfl i k h.1, hr k o rfl h.2⟩
  | gotvnode k c r =>
    cases c with
    | getroot | lookup => trivial
    | creat i o =>
      refine ⟨hentry rfl i k h.1, hr k o rfl h.2.1, ?_⟩
      rintro v rfl
      obtain ⟨hhalf, hnum⟩ := h.2.2 v rfl
      exact ⟨hh o rfl hhalf, by rw [hn v rfl, hnum]⟩
  | creatUninsert k o r => exact ⟨hr k o rfl h.1, h.2⟩
  | creatUninserted o r => exact h
  | removeGet i k => exact hentry rfl i k h
  | removeGot i k o | removeLock i k o | removeTable i k o => exact ⟨hentry rfl i k h.1, hr k o rfl h.2⟩
  | removeTabled i k o => exact hentry rfl i k h
  | removeUnlock i k o d =>
    cases d with
    | true => exact hentry rfl i k h
    | false => exact ⟨hentry rfl i k h.1, hr k o rfl h.2.1, hh o rfl h.2.2⟩
  | useGet v =>
    show (s'.vnode v).number ≠ SEMFS_ROOTDIR
    rw [hn v rfl]
    exact h
  | useGot v o | useLock v o | useUnlock v o =>
    show (s'.vnode v).number ≠ SEMFS_ROOTDIR ∧ s'.sems (s'.vnode v).number = some o
    rw [hn v rfl]
    exact ⟨h.1, hu v o rfl h.2⟩
  | _ => trivial

/-- A step of one thread. -/
theorem Inv.build (h : Inv s) (hpl : s'.place = update s.place t x) {fl : ℕ → Flags}
    (hfl : (fun o => (s'.sem o).flags) = fl)
    (hdir : Owner s'.dirlock (update (fun u => inDir (s.place u)) t (inDir x)))
    (htab : Owner s'.tablelock (update (fun u => inTable (s.place u)) t (inTable x)))
    (hlocks : ∀ o, Owner (s'.sem o).lock
      (update (fun u => decide (lockOf (s.place u) = some o)) t (decide (lockOf x = some o))))
    (hreg : Registry s'.sems s'.numSems fl s'.nextSem (update (fun u => owns (s.place u)) t (owns x))
      (update (fun u => detached (s.place u)) t (detached x)))
    (hdirec : Directory s'.dents s'.numDents s'.sems fl (update (fun u => touches (s.place u)) t (touches x)))
    (hrefs : Balanced s'.vnodes s'.vnode s'.nextVnode s'.held (update (fun u => hand (s.place u)) t (hand x)))
    (htied : Tied s'.vnodes s'.vnode s'.sems fl)
    (hin : ∀ v, hand x = some v → gone x = some v ∨ v ∈ s'.vnodes)
    (hout : ∀ v, gone x = some v → v ∉ s'.vnodes ∧ ∀ w, w ≠ t → hand (s.place w) ≠ some v)
    (hkept : ∀ u v, u ≠ t → hand (s.place u) = some v → v ∈ s.vnodes → v ∈ s'.vnodes)
    (hgone : ∀ u v, u ≠ t → gone (s.place u) = some v → v ∉ s'.vnodes ∧ hand x ≠ some v)
    (hx : Facts s' x) (hothers : ∀ u, u ≠ t → Facts s' (s.place u)) : Inv s' := by
  subst hfl
  refine ⟨?_, ?_, ?_, ?_, ?_, ?_, htied, ?_, ?_, ?_⟩
  · rwa [hpl, role_update inDir]
  · rwa [hpl, role_update inTable]
  · intro o
    rw [hpl, role_update (fun y => decide (lockOf y = some o))]
    exact hlocks o
  · rwa [hpl, role_update owns, role_update detached]
  · rwa [hpl, role_update touches]
  · rwa [hpl, role_update hand]
  · intro u v hu
    rw [hpl] at hu ⊢
    by_cases hut : u = t
    · subst hut
      rw [update_self] at hu ⊢
      exact hin v hu
    · rw [update_of_ne hut] at hu ⊢
      exact (h.loaded u v hu).imp_right (hkept u v hut hu)
  · intro u v hu
    rw [hpl] at hu ⊢
    by_cases hut : u = t
    · subst hut
      rw [update_self] at hu
      obtain ⟨hv, hw⟩ := hout v hu
      refine ⟨hv, ?_⟩
      intro w hwv
      by_contra hne
      rw [update_of_ne hne] at hwv
      exact hw w hne hwv
    · rw [update_of_ne hut] at hu
      obtain ⟨hv, hxv⟩ := hgone u v hut hu
      refine ⟨hv, ?_⟩
      intro w hwv
      by_cases hwt : w = t
      · subst hwt
        rw [update_self] at hwv
        exact absurd hwv hxv
      · rw [update_of_ne hwt] at hwv
        exact (h.out u v hu).2 w hwv
  · intro u
    rw [hpl]
    by_cases hut : u = t
    · subst hut
      rwa [update_self]
    · rw [update_of_ne hut]
      exact hothers u hut

omit [DecidableEq T] in
theorem Inv.not_gone (h : Inv s) {v : ℕ} (ht : hand (s.place t) = some v) (hg : gone (s.place t) = none) :
    v ∈ s.vnodes := by
  obtain hv | hv := h.loaded t v ht
  · rw [hg] at hv
    cases hv
  · exact hv

/-- A step that only concerns the two locks. -/
theorem Inv.quiet (h : Inv s) (hp : s.place t = y) {d tb : Option T} (hdir : Owner d (update (fun u => inDir (s.place u)) t (inDir x)))
    (htab : Owner tb (update (fun u => inTable (s.place u)) t (inTable x)))
    (hl : lockOf x = lockOf y) (ho : owns x = owns y) (hd : detached x = detached y)
    (ht : touches x = touches y) (hh : hand x = hand y) (hg : gone x = none) (hg' : gone y = none)
    (hx : Facts s x) : Inv ({ s with dirlock := d, tablelock := tb }.goto t x) := by
  subst hp
  have hvn : ∀ v, hand x = some v → v ∈ s.vnodes := fun v hv => h.not_gone (hh ▸ hv) hg'
  refine h.build rfl rfl hdir htab ?_ ?_ ?_ ?_ h.tied ?_ ?_ ?_ ?_ ?_ ?_
  · intro o
    exact (h.locks o).stay (by rw [hl])
  · rw [role_same owns s.place ho, role_same detached s.place hd]
    exact h.reg
  · rw [role_same touches s.place ht]
    exact h.direc
  · rw [role_same hand s.place hh]
    exact h.refs
  · exact fun v hv => .inr (hvn v hv)
  · intro v hv
    rw [hg] at hv
    cases hv
  · exact fun _ _ _ _ hv => hv
  · intro u v _ hu
    have hno := (h.out u v hu).1
    exact ⟨hno, fun hxv => hno (hvn v hxv)⟩
  · exact hx.keep (fun _ => ⟨rfl, rfl⟩) (fun _ _ => rfl) (fun _ _ _ hk => hk) (fun _ _ _ hk => hk) (fun _ _ hk => hk)
  · intro u _
    exact (h.facts u).keep (fun _ => ⟨rfl, rfl⟩) (fun _ _ => rfl) (fun _ _ _ hk => hk) (fun _ _ _ hk => hk)
      (fun _ _ hk => hk)

/-! Locks and searches. -/

omit [DecidableEq T] in
theorem Inv.no_dir (h : Inv s) (hd : s.dirlock = none) (u : T) : inDir (s.place u) = false := by
  by_contra hu
  have := (h.dir u).mpr (by simpa using hu)
  simp [hd] at this

omit [DecidableEq T] in
theorem Inv.only_dir (h : Inv s) (ht : inDir (s.place t) = true) (hu : u ≠ t) : inDir (s.place u) = false := by
  by_contra hno
  exact hu (h.dir.same ht (by simpa using hno))

theorem roles_outside (hx : inDir x = false) :
    owns x = none ∧ detached x = none ∧ touches x = none ∧ refers x = none ∧ halves x = none := by
  cases x with
  | getvnode k c => cases c <;> simp_all [inDir, owns, detached, touches, refers, halves]
  | gotvnode k c r => cases c <;> simp_all [inDir, owns, detached, touches, refers, halves]
  | _ => simp_all [inDir, owns, detached, touches, refers, halves]

variable {r : Stop → Prop} {P : State T → Prop} {lock : Option T} {next : Except Stop (State T)}

theorem ensures_acquire (hb : r .blocked) (ht : lock ≠ some t) (hn : lock = none → Ensures r P next) :
    Ensures r P (acquire t lock next) := by
  rw [acquire, if_neg ht]
  split
  · next hnone => exact hn hnone
  · exact hb

theorem ensures_release (ht : lock = some t) (hn : Ensures r P next) : Ensures r P (release t lock next) := by
  rwa [release, if_pos ht]

omit [DecidableEq T] in
theorem search_some {name : Name} {i : ℕ} (hs : search name s = some (i, k)) : EntryAt s i k := by
  obtain ⟨j, -, hj⟩ := List.exists_of_findSome?_eq_some hs
  cases hd : s.dents j with
  | none => simp [hd] at hj
  | some d =>
    simp only [hd] at hj
    split at hj
    · obtain ⟨rfl, rfl⟩ : j = i ∧ d.semnum = k := by simpa using hj
      exact ⟨d, hd, rfl⟩
    · cases hj

omit [DecidableEq T] in
theorem firstEmpty_empty (s : State T) : EmptyAt s (firstEmpty s) := by
  intro i hi
  have hmem := List.mem_of_find?_eq_some hi
  have hnone := List.find?_some hi
  exact ⟨by simpa using hnone, by simpa using hmem⟩

/-- The thread takes `semfs_dirlock` and looks at the entries. -/
theorem Inv.takeDir (h : Inv s) (hp : s.place t = y) (hd : s.dirlock = none) (hx : inDir x = true)
    (htab : inTable x = inTable y) (hl : lockOf x = lockOf y)
    (ho : owns x = none ∧ detached x = none ∧ touches x = none) (hh : hand x = none ∧ hand y = none)
    (hg : gone x = none ∧ gone y = none) (hf : Facts s x) : Inv ({ s with dirlock := some t }.goto t x) := by
  subst hp
  obtain ⟨ho', hd', ht', -, -⟩ := roles_outside (h.no_dir hd t)
  have hdir : Owner (some t) (update (fun u => inDir (s.place u)) t (inDir x)) := by
    rw [hx]
    exact Owner.take (hd ▸ h.dir) t
  exact h.quiet rfl hdir (h.tab.stay htab) hl (ho.1.trans ho'.symm) (ho.2.1.trans hd'.symm) (ho.2.2.trans ht'.symm)
    (hh.1.trans hh.2.symm) hg.1 hg.2 hf

omit [DecidableEq T] in
theorem Inv.dir_ne (h : Inv s) (hp : s.place t = y) (hy : inDir y = false) : s.dirlock ≠ some t := by
  simp [h.dir t, hp, hy]

omit [DecidableEq T] in
theorem Inv.dir_eq (h : Inv s) (hp : s.place t = y) (hy : inDir y = true) : s.dirlock = some t :=
  (h.dir t).mpr (by simp [hp, hy])

omit [DecidableEq T] in
theorem Inv.tab_ne (h : Inv s) (hp : s.place t = y) (hy : inTable y = false) : s.tablelock ≠ some t := by
  simp [h.tab t, hp, hy]

omit [DecidableEq T] in
theorem Inv.tab_eq (h : Inv s) (hp : s.place t = y) (hy : inTable y = true) : s.tablelock = some t :=
  (h.tab t).mpr (by simp [hp, hy])

/-- The two locks, taken and released. -/
theorem Inv.tab_taken (h : Inv s) (hn : s.tablelock = none) (hx : inTable x = true) :
    Owner (some t) (update (fun u => inTable (s.place u)) t (inTable x)) := by
  rw [hx]
  exact Owner.take (hn ▸ h.tab) t

theorem Inv.tab_left (h : Inv s) (hl : s.tablelock = some t) (hx : inTable x = false) :
    Owner none (update (fun u => inTable (s.place u)) t (inTable x)) := by
  rw [hx]
  exact Owner.leave (hl ▸ h.tab)

theorem Inv.dir_left (h : Inv s) (hl : s.dirlock = some t) (hx : inDir x = false) :
    Owner none (update (fun u => inDir (s.place u)) t (inDir x)) := by
  rw [hx]
  exact Owner.leave (hl ▸ h.dir)

end OS161.SemDirectory
