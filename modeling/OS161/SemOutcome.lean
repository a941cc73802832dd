import OS161.SemLifecycle

/-!
# What a creation returns

`semfs_creat` from its call to its return, by a thread that goes on alone. It
has five steps to take back when a later one fails. When memory for the directory
entry runs out they are taken back as well, but the result is the one of the
insertion before, which is success.
-/

set_option autoImplicit false

namespace OS161.SemDirectory

open Function OS161.Vfs OS161.References OS161.Runs

variable {T : Type} [DecidableEq T]

def result : Place → Option Result
  | .idle r => some r
  | _ => none

/-- The thread goes on until its call returns, for so many steps at most. -/
def finish (t : T) (mem : Memory) : ℕ → State T → Except Stop (Result × State T)
  | 0, s => match result (s.place t) with
    | some r => .ok (r, s)
    | none => .error .blocked
  | n+1, s => match result (s.place t) with
    | some r => .ok (r, s)
    | none => match advance t mem false s with
      | .error stop => .error stop
      | .ok s' => finish t mem n s'

/-- The longest way through has eight lock operations. Each allocation is made once, at most. -/
def semfsCreat (t : T) (name : Name) (excl : Bool) (mem : Memory) (s : State T) : Except Stop (Result × State T) :=
  match begin t (.creat name excl) s with
  | .error stop => .error stop
  | .ok s' => finish t mem 8 s'

/-- A vnode of the number, with one reference more than there was. -/
structure Handed (s s' : State T) (k v : ℕ) : Prop where
  member : v ∈ s'.vnodes
  live : (s'.vnode v).live = true
  number : (s'.vnode v).number = k
  count : (s'.vnode v).refcount = (if v ∈ s.vnodes then (s.vnode v).refcount else 0) + 1
  others : ∀ w, w ≠ v → s'.vnode w = s.vnode w

/-- The name leads to a semaphore that is there, and the caller has a reference to its vnode. -/
structure Created (s s' : State T) (name : Name) (v : ℕ) : Prop where
  named : ∃ i k o, search name s' = some (i, k) ∧ s'.sems k = some o ∧ (s'.sem o).live = true ∧
    (s'.sem o).linked = true ∧ Handed s s' k v
  held : s'.held = update s.held v (s.held v+1)

/-- Entries, semaphores, vnodes and references are as they were. -/
structure Untouched (s s' : State T) : Prop where
  names : ∀ name, search name s' = search name s
  dents : s'.dents = s.dents
  sems : s'.sems = s.sems
  live : ∀ o, (s'.sem o).live = (s.sem o).live
  sem : ∀ o, (s.sem o).live = true → s'.sem o = s.sem o
  vnodes : s'.vnodes = s.vnodes
  vnode : s'.vnode = s.vnode
  held : s'.held = s.held

/-- A result, and what it says about the states before and after. -/
def CreatRight (s s' : State T) (name : Name) : Result → Prop
  | .ok (some v) => Created s s' name v
  | .ok none => False
  | .error _ => Untouched s s'

/-- The table is not full, and has a free place or can grow. -/
def Room (s : State T) (mem : Memory) : Prop :=
  s.numSems ≠ SEMFS_ROOTDIR ∧ (mem.table = true ∨ ∃ k, k < s.numSems ∧ s.sems k = none)

/-- Everything that comes before the directory entry succeeds, and the entry fails. -/
structure EntryFails (s : State T) (name : Name) (mem : Memory) : Prop where
  plain : dots name = false
  new : search name s = none
  sem : mem.sem = true
  room : Room s mem
  entry : mem.dirent = false

/-- As before, but for a semaphore that was not there. -/
structure But (s s' : State T) (o : ℕ) : Prop where
  dead : (s.sem o).live = false
  size : s.numDents ≤ s'.numDents
  dents : s'.dents = s.dents
  sems : s'.sems = s.sems
  sem : ∀ p, p ≠ o → s'.sem p = s.sem p
  vnodes : s'.vnodes = s.vnodes
  vnode : s'.vnode = s.vnode
  held : s'.held = s.held

variable {s s' s₁ : State T} {t : T} {x : Place} {o k i n : ℕ} {name : Name} {mem : Memory} {r : Result}

theorem finish_idle (hp : s.place t = .idle r) : finish t mem n s = .ok (r, s) := by
  cases n <;> simp only [finish, hp, result]

theorem finish_advance (hp : s.place t = x) (hx : result x = none) (ha : advance t mem false s = .ok s') :
    finish t mem (n+1) s = finish t mem n s' := by
  simp only [finish, hp, hx, ha]

theorem result_idle (hr : result x = some r) : x = .idle r := by
  cases x with
  | idle r₀ =>
    cases hr
    rfl
  | _ => cases hr

/-- A call that goes on alone is a run of the file system. -/
theorem finish_run (hf : finish t mem n s = .ok (r, s')) :
    ∃ m, run step (List.replicate m (t, .advance mem false)) s = .ok s' ∧ s'.place t = .idle r := by
  induction n generalizing s with
  | zero =>
    unfold finish at hf
    cases hr : result (s.place t) with
    | some r₀ =>
      simp only [hr] at hf
      cases hf
      exact ⟨0, rfl, result_idle hr⟩
    | none => simp [hr] at hf
  | succ n ih =>
    unfold finish at hf
    cases hr : result (s.place t) with
    | some r₀ =>
      simp only [hr] at hf
      cases hf
      exact ⟨0, rfl, result_idle hr⟩
    | none =>
      simp only [hr] at hf
      cases ha : advance t mem false s with
      | error stop => simp [ha] at hf
      | ok s₂ =>
        simp only [ha] at hf
        obtain ⟨m, hrun, hidle⟩ := ih hf
        refine ⟨m+1, ?_, hidle⟩
        have hstep : step (t, .advance mem false) s = .ok s₂ := by simp only [step, ha]
        exact run_cons_ok.mpr ⟨s₂, hstep, hrun⟩

theorem semfsCreat_run {r₀ : Result} {excl : Bool} (hp : s.place t = .idle r₀)
    (hc : semfsCreat t name excl mem s = .ok (r, s')) :
    ∃ m, run step ((t, .creat name excl) :: List.replicate m (t, .advance mem false)) s = .ok s' ∧
      s'.place t = .idle r := by
  unfold semfsCreat at hc
  cases hb : begin t (.creat name excl) s with
  | error stop => simp [hb] at hc
  | ok s₂ =>
    simp only [hb] at hc
    obtain ⟨m, hrun, hidle⟩ := finish_run hc
    have hstep : step (t, .creat name excl) s = .ok s₂ := by simp only [step, hp, hb]
    exact ⟨m, run_cons_ok.mpr ⟨s₂, hstep, hrun⟩, hidle⟩

theorem advance_inv (h : Inv s) (hp : s.place t = x) (hx : ∀ v, x ≠ .reclaim v) (ha : advance t mem false s = .ok s') :
    Inv s' := by
  have hsteps : Steps (advance t mem false s) := advance_steps h (hp ▸ hx)
  rwa [ha] at hsteps

theorem acquire_free (t : T) {lock : Option T} (hl : lock = none) (next : Except Stop (State T)) :
    acquire t lock next = next := by
  subst hl
  rfl

theorem release_own {lock : Option T} (hl : lock = some t) (next : Except Stop (State T)) :
    release t lock next = next := if_pos hl

theorem findSome_range {α : Type} {f : ℕ → Option α} {m n : ℕ} (h : ∀ i, n ≤ i → f i = none) :
    (List.range (n+m)).findSome? f = (List.range n).findSome? f := by
  have hrest : ((List.range m).map (n + ·)).findSome? f = none := by
    rw [List.findSome?_eq_none_iff]
    intro i hi
    obtain ⟨j, -, rfl⟩ := List.mem_map.mp hi
    exact h _ (Nat.le_add_right ..)
  rw [List.range_add, List.findSome?_append, hrest, Option.or_none]

omit [DecidableEq T] in
/-- Looking a name up again, with empty entries at the end. -/
theorem search_same (hd : s'.dents = s.dents) (hsize : s.numDents ≤ s'.numDents)
    (hbound : ∀ i d, s.dents i = some d → i < s.numDents) (name : Name) : search name s' = search name s := by
  obtain ⟨m, hm⟩ := Nat.exists_eq_add_of_le hsize
  unfold search
  rw [hd, hm]
  refine findSome_range ?_
  intro i hi
  cases hdent : s.dents i with
  | none => rfl
  | some d => exact absurd (hbound i d hdent) (by omega)

omit [DecidableEq T] in
theorem But.untouched (hb : But s s' o) (h : Inv s) (hdead : (s'.sem o).live = false) : Untouched s s' where
  names := search_same hb.dents hb.size h.direc.bound
  dents := hb.dents
  sems := hb.sems
  live := by
    intro p
    by_cases hp : p = o
    · rw [hp, hdead, hb.dead]
    · rw [hb.sem p hp]
  sem := by
    intro p hlive
    apply hb.sem
    rintro rfl
    rw [hb.dead] at hlive
    cases hlive
  vnodes := hb.vnodes
  vnode := hb.vnode
  held := hb.held

theorem finish_unlockDir (h : Inv s) (hp : s.place t = .unlockDir r) :
    finish t mem (n+1) s = .ok (r, (returned r { s with dirlock := none }).goto t (.idle r)) := by
  have ha : advance t mem false s = .ok ((returned r { s with dirlock := none }).goto t (.idle r)) := by
    simp only [advance, hp, unlockDir, release_own (h.dir_eq hp rfl)]
  rw [finish_advance hp rfl ha]
  exact finish_idle (update_self ..)

omit [DecidableEq T] in
theorem returned_none (hr : hand (.unlockDir r) = none) (s : State T) : returned r s = s := by
  cases r with
  | error e => rfl
  | ok v =>
    cases v with
    | none => rfl
    | some v => cases hr

/-- The semaphore goes, and nothing is left of it. -/
theorem finish_destroyed (h₀ : Inv s) (h : Inv s₁) (hp : s₁.place t = x) (hd : detached x = some o) (hin : inDir x = true)
    (htab : inTable x = true) (hno : lockOf x = none) (ht : touches x = none) (hh : hand x = none) (hg : gone x = none)
    (hx : result x = none) (hr : hand (.unlockDir r) = none) (hb : But s s₁ o)
    (ha : ∀ s₂, semfsSemDestroy o { s₁ with tablelock := none } = .ok s₂ →
      advance t mem false s₁ = .ok (s₂.goto t (.unlockDir r))) :
    ∃ s', finish t mem (n+2) s₁ = .ok (r, s') ∧ Untouched s s' := by
  obtain ⟨hdestroy, hinv⟩ := h.uncreate hp hd (h.tab_eq hp htab) hin hno ht hh hg hr
  rw [finish_advance hp hx (ha _ hdestroy), finish_unlockDir hinv (update_self ..), returned_none hr]
  refine ⟨_, rfl, ?_⟩
  refine But.untouched (o := o) ⟨hb.dead, hb.size, hb.dents, hb.sems, ?_, hb.vnodes, hb.vnode, hb.held⟩ h₀ ?_
  · intro p hpo
    exact (update_of_ne hpo ..).trans (hb.sem p hpo)
  · show (update s₁.sem o { s₁.sem o with live := false } o).live = false
    rw [update_self]

theorem finish_uncreated (h₀ : Inv s) (h : Inv s₁) (hp : s₁.place t = .creatUninserted o r) (hb : But s s₁ o) :
    ∃ s', finish t mem (n+2) s₁ = .ok (r, s') ∧ Untouched s s' := by
  have hr : Facts s₁ (.creatUninserted o r) := hp ▸ h.facts t
  refine finish_destroyed h₀ h hp rfl rfl rfl rfl rfl rfl rfl rfl hr hb ?_
  intro s₂ hs₂
  simp only [advance, hp, creatUninserted, release_own (h.tab_eq hp rfl), hs₂]

theorem finish_uninserting {name : Name} {e : Option ℕ} {err : Errno} (h₀ : Inv s) (h : Inv s₁)
    (hp : s₁.place t = .creatInserted name e o (.error err)) (hb : But s s₁ o) :
    ∃ s', finish t mem (n+2) s₁ = .ok (.error err, s') ∧ Untouched s s' := by
  refine finish_destroyed h₀ h hp rfl rfl rfl rfl rfl rfl rfl rfl rfl hb ?_
  intro s₂ hs₂
  simp only [advance, hp, creatInserted, release_own (h.tab_eq hp rfl), hs₂]

/-- It is taken out of the table first. -/
theorem finish_uninserted (h₀ : Inv s) (h : Inv s₁) (hp : s₁.place t = .creatUninsert k o r) (hl : s₁.tablelock = none)
    (hb : But s { s₁ with sems := update s₁.sems k none } o) :
    ∃ s', finish t mem (n+3) s₁ = .ok (r, s') ∧ Untouched s s' := by
  have ha : advance t mem false s₁ =
      .ok ({ s₁ with tablelock := some t, sems := update s₁.sems k none }.goto t (.creatUninserted o r)) := by
    simp only [advance, hp, creatUninsert, acquire_free t hl]
  have hinv := advance_inv h hp (by simp) ha
  rw [finish_advance hp rfl ha]
  exact finish_uncreated h₀ hinv (update_self ..)
    ⟨hb.dead, hb.size, hb.dents, hb.sems, hb.sem, hb.vnodes, hb.vnode, hb.held⟩

/-- How `semfs_getvnode` ends: with the vnode, or with nothing changed. -/
structure Got (s s' : State T) (k : ℕ) (r : Except Errno ℕ) : Prop where
  dents : s'.dents = s.dents
  size : s'.numDents = s.numDents
  sems : s'.sems = s.sems
  linked : ∀ p, (s'.sem p).live = (s.sem p).live ∧ (s'.sem p).linked = (s.sem p).linked
  held : s'.held = s.held
  handed : ∀ v, r = .ok v → Handed s s' k v
  failed : ∀ e, r = .error e → s'.sem = s.sem ∧ s'.vnodes = s.vnodes ∧ s'.vnode = s.vnode

theorem getvnode_got {c : Caller} (h : Inv s) (hp : s.place t = .getvnode k c) (hl : s.tablelock = none)
    (hs : s.sems k = some o) :
    ∃ c' s', advance t mem false s = .ok s' ∧ s'.place t = .gotvnode k c c' ∧ Got s s' k c' := by
  simp only [advance, hp, getvnode, acquire_free t hl]
  cases hfind : s.vnodes.find? (fun v => (s.vnode v).number = k) with
  | some v =>
    have hmem := List.mem_of_find?_eq_some hfind
    have hk : (s.vnode v).number = k := by simpa using List.find?_some hfind
    have hlive := h.refs.live v hmem
    simp only [vnodeIncref, if_pos hlive]
    refine ⟨_, _, rfl, update_self .., rfl, rfl, rfl, fun _ => ⟨rfl, rfl⟩, rfl, ?_, fun e he => by cases he⟩
    rintro w ⟨⟩
    refine ⟨hmem, ?_, ?_, ?_, fun w hw => update_of_ne hw ..⟩
    · show (update s.vnode v _ v).live = true
      rwa [update_self]
    · show (update s.vnode v _ v).number = k
      rwa [update_self]
    · show (update s.vnode v _ v).refcount = _
      rw [update_self, if_pos hmem]
  | none =>
    have hnew : ∀ v ∈ s.vnodes, (s.vnode v).number ≠ k := by simpa using hfind
    cases mem.vnode with
    | false =>
      refine ⟨_, _, rfl, update_self .., rfl, rfl, rfl, fun _ => ⟨rfl, rfl⟩, rfl, ?_, fun _ _ => ⟨rfl, rfl, rfl⟩⟩
      rintro v ⟨⟩
    | true =>
      have hget : semarrayGet k (semfsVnodeCreate k { s with tablelock := some t }).2 = .ok o :=
        semarrayGet_ok h hs rfl rfl rfl
      have hno : ((semfsVnodeCreate k { s with tablelock := some t }).2.sem o).hasvnode = false := by
        by_contra hv
        obtain ⟨v, hmem, hk⟩ := h.vnode_of_flag hs (Bool.of_not_eq_false hv)
        exact hnew v hmem hk
      simp only [if_true, if_neg (h.not_root hs), hget, hno]
      refine ⟨_, _, rfl, update_self .., rfl, rfl, rfl, ?_, rfl, ?_, fun e he => by cases he⟩
      · intro p
        show (update s.sem o { s.sem o with hasvnode := true } p).live = _ ∧
          (update s.sem o { s.sem o with hasvnode := true } p).linked = _
        by_cases hpo : p = o
        · subst hpo
          rw [update_self]
          exact ⟨rfl, rfl⟩
        · rw [update_of_ne hpo]
          exact ⟨rfl, rfl⟩
      · rintro w ⟨⟩
        refine ⟨List.mem_append_right _ (List.mem_singleton.mpr rfl), ?_, ?_, ?_, ?_⟩
        · show (update s.vnode s.nextVnode ⟨true, k, 1⟩ s.nextVnode).live = true
          rw [update_self]
        · show (update s.vnode s.nextVnode ⟨true, k, 1⟩ s.nextVnode).number = k
          rw [update_self]
        · show (update s.vnode s.nextVnode ⟨true, k, 1⟩ s.nextVnode).refcount =
            (if s.nextVnode ∈ s.vnodes then (s.vnode s.nextVnode).refcount else 0) + 1
          rw [update_self, if_neg h.next_new]
        · intro w hw
          exact update_of_ne hw ..

/-- The name has been found. -/
theorem finish_found (h₀ : Inv s) (hs : search name s = some (i, k)) {d : Option T} {pl : T → Place}
    (h : Inv { s with dirlock := d, place := pl }) (hp : pl t = .getvnode k .lookup) (hl : s.tablelock = none) :
    ∃ r s', finish t mem (n+3) { s with dirlock := d, place := pl } = .ok (r, s') ∧ CreatRight s s' name r := by
  obtain ⟨o, hsems, hlinked⟩ := h.entry_linked (t := t) (by show inDir (pl t) = true; rw [hp]; rfl)
    (by show touches (pl t) = none; rw [hp]; rfl) (show EntryAt _ i k from search_some hs)
  obtain ⟨c, s₂, ha, hp₂, hg⟩ := getvnode_got h hp hl hsems
  have h₂ := advance_inv h hp (by simp) ha
  have ha₂ : advance t mem false s₂ = .ok ({ s₂ with tablelock := none }.goto t (.unlockDir (c.map some))) := by
    simp only [advance, hp₂, gotvnode, release_own (h₂.tab_eq hp₂ rfl)]
  have h₃ := advance_inv h₂ hp₂ (by simp) ha₂
  rw [finish_advance hp rfl ha, finish_advance hp₂ rfl ha₂, finish_unlockDir h₃ (update_self ..)]
  refine ⟨_, _, rfl, ?_⟩
  cases c with
  | ok v =>
    refine ⟨⟨i, k, o, ?_, ?_, ?_, ?_, ?_⟩, ?_⟩
    · exact (search_same hg.dents (le_of_eq hg.size.symm) h₀.direc.bound name).trans hs
    · exact (congrFun hg.sems k).trans hsems
    · exact (hg.linked o).1.trans (h.reg.live k o hsems)
    · exact (hg.linked o).2.trans hlinked
    · obtain ⟨h1, h2, h3, h4, h5⟩ := hg.handed v rfl
      exact ⟨h1, h2, h3, h4, h5⟩
    · show update s₂.held v (s₂.held v+1) = _
      rw [hg.held]
  | error e =>
    obtain ⟨hsem, hvnodes, hvnode⟩ := hg.failed e rfl
    exact ⟨search_same hg.dents (le_of_eq hg.size.symm) h₀.direc.bound, hg.dents, hg.sems, fun p => (hg.linked p).1,
      fun p _ => congrFun hsem p, hvnodes, hvnode, hg.held⟩

omit [DecidableEq T] in
theorem search_none : search name s = none ↔ ∀ i, i < s.numDents → ∀ d, s.dents i = some d → d.name ≠ name := by
  unfold search
  rw [List.findSome?_eq_none_iff]
  constructor
  · intro h i hi d hd
    have hno := h i (List.mem_range.mpr hi)
    simp only [hd] at hno
    by_contra hname
    rw [if_pos hname] at hno
    cases hno
  · intro h i hi
    cases hd : s.dents i with
    | none => rfl
    | some d => exact if_neg (h i (List.mem_range.mp hi) d hd)

omit [DecidableEq T] in
theorem search_name (hs : search name s = some (i, k)) : ∃ d, s.dents i = some d ∧ d.name = name ∧ d.semnum = k := by
  obtain ⟨j, -, hj⟩ := List.exists_of_findSome?_eq_some hs
  cases hd : s.dents j with
  | none => simp [hd] at hj
  | some d =>
    simp only [hd] at hj
    split_ifs at hj with hname
    rw [Option.some.injEq, Prod.mk.injEq] at hj
    obtain ⟨rfl, rfl⟩ := hj
    exact ⟨d, hd, hname, rfl⟩

omit [DecidableEq T] in
/-- A name that was not there is found where it has been entered. -/
theorem search_entered (hnone : search name s = none) (hbound : ∀ i d, s.dents i = some d → i < s.numDents)
    (hd : s'.dents = update s.dents i (some ⟨name, k⟩)) (hi : i < s'.numDents) : search name s' = some (i, k) := by
  cases hs : search name s' with
  | none =>
    have hentry : s'.dents i = some ⟨name, k⟩ := by rw [hd, update_self]
    exact absurd rfl (search_none.mp hs i hi _ hentry)
  | some found =>
    obtain ⟨j, m⟩ := found
    obtain ⟨d, hj, hname, hnum⟩ := search_name hs
    rw [hd] at hj
    by_cases hji : j = i
    · subst hji
      rw [update_self] at hj
      cases hj
      rw [← hnum]
    · rw [update_of_ne hji] at hj
      exact absurd hname (search_none.mp hnone j (hbound j d hj) d hj)

/-- The entry has been made, and the vnode is the last thing that can fail. -/
theorem finish_entered (h₀ : Inv s) (hnone : search name s = none) (h : Inv s₁)
    (hp : s₁.place t = .getvnode k (.creat i o)) (hl : s₁.tablelock = none)
    (hd : s₁.dents = update s.dents i (some ⟨name, k⟩)) (hi : s.dents i = none) (hlt : i < s₁.numDents)
    (hsems : s₁.sems = update s.sems k (some o)) (hk : s.sems k = none)
    (hb : But s { s₁ with dents := s.dents, sems := s.sems } o) :
    ∃ r s', finish t mem (n+5) s₁ = .ok (r, s') ∧ CreatRight s s' name r := by
  have hmine : s₁.sems k = some o := by rw [hsems, update_self]
  obtain ⟨c, s₂, ha, hp₂, hg⟩ := getvnode_got h hp hl hmine
  have h₂ := advance_inv h hp (by simp) ha
  have hrelease := h₂.tab_eq hp₂ rfl
  cases c with
  | ok v =>
    have hlive : (s₂.sem o).live = true := (hg.linked o).1.trans (h.reg.live k o hmine)
    have ha₂ : advance t mem false s₂ =
        .ok (({ s₂ with tablelock := none }.setSem o { s₂.sem o with linked := true }).goto t
          (.unlockDir (.ok (some v)))) := by
      simp only [advance, hp₂, gotvnode, release_own hrelease, if_pos hlive]
    have h₃ := advance_inv h₂ hp₂ (by simp) ha₂
    rw [finish_advance hp rfl ha, finish_advance hp₂ rfl ha₂, finish_unlockDir h₃ (update_self ..)]
    refine ⟨_, _, rfl, ⟨i, k, o, ?_, ?_, ?_, ?_, ?_⟩, ?_⟩
    · refine search_entered hnone h₀.direc.bound (hg.dents.trans hd) ?_
      show i < s₂.numDents
      rwa [hg.size]
    · exact (congrFun hg.sems k).trans hmine
    · show (update s₂.sem o { s₂.sem o with linked := true } o).live = true
      rwa [update_self]
    · show (update s₂.sem o { s₂.sem o with linked := true } o).linked = true
      rw [update_self]
    · obtain ⟨hmem, hlive', hnum, hcount, hothers⟩ := hg.handed v rfl
      rw [show s₁.vnodes = s.vnodes from hb.vnodes, show s₁.vnode = s.vnode from hb.vnode] at hcount
      rw [show s₁.vnode = s.vnode from hb.vnode] at hothers
      exact ⟨hmem, hlive', hnum, hcount, hothers⟩
    · show update s₂.held v (s₂.held v+1) = update s.held v (s.held v+1)
      rw [hg.held, show s₁.held = s.held from hb.held]
  | error e =>
    obtain ⟨hsem, hvnodes, hvnode⟩ := hg.failed e rfl
    have ha₂ : advance t mem false s₂ =
        .ok ({ s₂ with tablelock := none, dents := update s₂.dents i none }.goto t (.creatUninsert k o (.error e))) := by
      simp only [advance, hp₂, gotvnode, release_own hrelease]
    have h₃ := advance_inv h₂ hp₂ (by simp) ha₂
    rw [finish_advance hp rfl ha, finish_advance hp₂ rfl ha₂]
    refine ⟨.error e, ?_⟩
    refine finish_uninserted h₀ h₃ (update_self ..) rfl ?_
    refine ⟨hb.dead, ?_, ?_, ?_, ?_, hvnodes.trans hb.vnodes, hvnode.trans hb.vnode, hg.held.trans hb.held⟩
    · show s.numDents ≤ s₂.numDents
      rw [hg.size]
      exact hb.size
    · show update s₂.dents i none = s.dents
      rw [hg.dents, hd, update_idem, ← hi, update_eq_self]
    · show update s₂.sems k none = s.sems
      rw [hg.sems, hsems, update_idem, ← hk, update_eq_self]
    · intro p hpo
      show s₂.sem p = s.sem p
      rw [hsem]
      exact hb.sem p hpo

/-- The semaphore is in the table. If no memory is left for an entry, the result is the insertion's. -/
theorem finish_inserted (h₀ : Inv s) (hnone : search name s = none) {e : Option ℕ} (h : Inv s₁)
    (hp : s₁.place t = .creatInserted name e o (.ok k)) (hsize : s₁.numDents = s.numDents)
    (hsems : s₁.sems = update s.sems k (some o)) (hk : s.sems k = none) (hb : But s { s₁ with sems := s.sems } o) :
    ∃ r s', finish t mem (n+6) s₁ = .ok (r, s') ∧ (CreatRight s s' name r ↔ mem.dirent = true) := by
  have hrelease := h.tab_eq hp rfl
  have hback : update s₁.sems k none = s.sems := by rw [hsems, update_idem, ← hk, update_eq_self]
  have hempty : EmptyAt s₁ e := (hp ▸ h.facts t : Facts s₁ (.creatInserted name e o (.ok k))).1
  have hdents : s₁.dents = s.dents := hb.dents
  -- without an entry everything is taken back
  have huninsert : ∀ r, hand (.unlockDir r) = none →
      advance t mem false s₁ = .ok ({ s₁ with tablelock := none }.goto t (.creatUninsert k o r)) →
      ∃ s', finish t mem (n+6) s₁ = .ok (r, s') ∧ Untouched s s' := by
    intro r _ ha
    have h₂ := advance_inv h hp (by simp) ha
    rw [finish_advance hp rfl ha]
    exact finish_uninserted h₀ h₂ (update_self ..) rfl
      ⟨hb.dead, hb.size, hdents, hback, hb.sem, hb.vnodes, hb.vnode, hb.held⟩
  have henter : ∀ i m, mem.dirent = true → s.dents i = none → i < m → s.numDents ≤ m →
      advance t mem false s₁ = .ok ({ s₁ with
        tablelock := none
        dents := update s₁.dents i (some ⟨name, k⟩)
        numDents := m }.goto t (.getvnode k (.creat i o))) →
      ∃ r s', finish t mem (n+6) s₁ = .ok (r, s') ∧ (CreatRight s s' name r ↔ mem.dirent = true) := by
    intro i m hentry hi hlt hm ha
    have h₂ := advance_inv h hp (by simp) ha
    have hd : update s₁.dents i (some ⟨name, k⟩) = update s.dents i (some ⟨name, k⟩) := by rw [hdents]
    obtain ⟨r, s', hfin, hright⟩ := finish_entered (n := n) h₀ hnone h₂ (update_self ..) rfl hd hi hlt
      hsems hk ⟨hb.dead, hm, rfl, rfl, hb.sem, hb.vnodes, hb.vnode, hb.held⟩
    rw [finish_advance hp rfl ha]
    exact ⟨r, s', hfin, iff_of_true hright hentry⟩
  by_cases hentry : mem.dirent = true
  · cases e with
    | some i =>
      obtain ⟨hi, hlt⟩ := hempty i rfl
      rw [hdents] at hi
      rw [hsize] at hlt
      refine henter i s₁.numDents hentry hi (by omega) (by omega) ?_
      simp only [advance, hp, creatInserted, release_own hrelease, hentry, if_true]
    | none =>
      by_cases hdirents : mem.dirents = true
      · have hi : s.dents s₁.numDents = none := by
          by_contra hne
          obtain ⟨d, hd⟩ := Option.ne_none_iff_exists'.mp hne
          exact absurd (h₀.direc.bound _ d hd) (by omega)
        refine henter s₁.numDents (s₁.numDents+1) hentry hi (by omega) (by omega) ?_
        simp only [advance, hp, creatInserted, release_own hrelease, hentry, hdirents, if_true]
      · obtain ⟨s', hfin, huntouched⟩ := huninsert (.error .enomem) rfl
          (by simp only [advance, hp, creatInserted, release_own hrelease, hentry, if_true, if_neg hdirents])
        exact ⟨_, s', hfin, iff_of_true huntouched hentry⟩
  · obtain ⟨s', hfin, -⟩ := huninsert (.ok none) rfl
      (by simp only [advance, hp, creatInserted, release_own hrelease, if_neg hentry])
    exact ⟨_, s', hfin, iff_of_false id hentry⟩

omit [DecidableEq T] in
/-- There is room in the table, and a free place or memory for one. -/
theorem insert_ok_iff : (∃ k, (semfsSemInsert o mem s).1 = .ok k) ↔ Room s mem := by
  simp only [semfsSemInsert, Room]
  by_cases hfull : s.numSems = SEMFS_ROOTDIR
  · rw [if_pos hfull]
    exact iff_of_false (by simp) (fun h => h.1 hfull)
  · rw [if_neg hfull]
    cases hfind : (List.range s.numSems).find? (fun k => (s.sems k).isNone) with
    | some k =>
      have hlt : k < s.numSems := List.mem_range.mp (List.mem_of_find?_eq_some hfind)
      have hfree : s.sems k = none := by simpa using List.find?_some hfind
      exact iff_of_true ⟨k, rfl⟩ ⟨hfull, .inr ⟨k, hlt, hfree⟩⟩
    | none =>
      have hno : ¬ ∃ k, k < s.numSems ∧ s.sems k = none := by
        rintro ⟨k, hlt, hk⟩
        have hsome := List.find?_eq_none.mp hfind k (List.mem_range.mpr hlt)
        simp [hk] at hsome
      by_cases htable : mem.table = true
      · simp only [if_pos htable]
        exact iff_of_true ⟨_, rfl⟩ ⟨hfull, .inl htable⟩
      · simp only [if_neg htable]
        exact iff_of_false (by simp) (fun h => h.2.elim htable hno)

/-- The semaphore has been made. -/
theorem finish_insert (h₀ : Inv s) (hnone : search name s = none) {e : Option ℕ} (h : Inv s₁)
    (hp : s₁.place t = .creatInsert name e o) (hl : s₁.tablelock = none) (hdents : s₁.numDents = s.numDents)
    (hnum : s₁.numSems = s.numSems) (hb : But s s₁ o) :
    ∃ r s', finish t mem (n+7) s₁ = .ok (r, s') ∧
      (CreatRight s s' name r ↔ ¬(Room s mem ∧ mem.dirent = false)) := by
  have hroom : Room { s₁ with tablelock := some t } mem ↔ Room s mem := by simp only [Room, hnum, hb.sems]
  rw [← hroom, ← insert_ok_iff (o := o)]
  obtain ⟨err, hr⟩ | ⟨k, m, hr, hk, -⟩ :=
    insert_cases (s := { s₁ with tablelock := some t }) mem h.reg.size h.reg.bound o
  · have ha : advance t mem false s₁ =
        .ok ({ s₁ with tablelock := some t }.goto t (.creatInserted name e o (.error err))) := by
      simp only [advance, hp, creatInsert, acquire_free t hl, hr]
    have h₂ := advance_inv h hp (by simp) ha
    obtain ⟨s', hfin, huntouched⟩ := finish_uninserting (n := n+4) h₀ h₂ (update_self ..)
      ⟨hb.dead, hb.size, hb.dents, hb.sems, hb.sem, hb.vnodes, hb.vnode, hb.held⟩
    rw [finish_advance hp rfl ha]
    refine ⟨_, s', hfin, iff_of_true huntouched ?_⟩
    rw [hr]
    simp
  · have ha : advance t mem false s₁ = .ok ({ s₁ with
        tablelock := some t
        sems := update s₁.sems k (some o)
        numSems := m }.goto t (.creatInserted name e o (.ok k))) := by
      simp only [advance, hp, creatInsert, acquire_free t hl, hr]
    have h₂ := advance_inv h hp (by simp) ha
    have hsems : update s₁.sems k (some o) = update s.sems k (some o) := by rw [hb.sems]
    have hfree : s.sems k = none := hb.sems ▸ hk
    obtain ⟨r, s', hfin, hright⟩ := finish_inserted (n := n) h₀ hnone h₂ (update_self ..) hdents hsems hfree
      ⟨hb.dead, hb.size, hb.dents, rfl, hb.sem, hb.vnodes, hb.vnode, hb.held⟩
    rw [finish_advance hp rfl ha]
    refine ⟨r, s', hfin, hright.trans ?_⟩
    rw [and_iff_right ⟨k, by rw [hr]⟩, Bool.not_eq_false]

omit [DecidableEq T] in
/-- Nothing has changed but the directory's lock. -/
theorem untouched_locked (h : Inv s) {d : Option T} {pl : T → Place} : Untouched s { s with dirlock := d, place := pl } :=
  ⟨search_same rfl (le_refl _) h.direc.bound, rfl, rfl, fun _ => rfl, fun _ _ => rfl, rfl, rfl, rfl⟩

/-- From the beginning, for a name that is not `.` or `..`. -/
theorem finish_creatDir {excl : Bool} (h₀ : Inv s) (h : Inv (s.goto t (.creatDir name excl))) (hd : s.dirlock = none)
    (hl : s.tablelock = none) (hdots : dots name = false) :
    ∃ r s', finish t mem 8 (s.goto t (.creatDir name excl)) = .ok (r, s') ∧
      (CreatRight s s' name r ↔ ¬ EntryFails s name mem) := by
  have hp : (s.goto t (.creatDir name excl)).place t = .creatDir name excl := update_self ..
  have hfree : (s.goto t (.creatDir name excl)).dirlock = none := hd
  have hsearch : search name { s.goto t (.creatDir name excl) with dirlock := some t } = search name s := rfl
  cases hs : search name s with
  | some found =>
    obtain ⟨i, k⟩ := found
    have hno : ¬ EntryFails s name mem := by
      intro hf
      rw [hf.new] at hs
      cases hs
    cases excl with
    | true =>
      have ha : advance t mem false (s.goto t (.creatDir name true)) =
          .ok ({ s.goto t (.creatDir name true) with dirlock := some t }.goto t (.unlockDir (.error .eexist))) := by
        simp only [advance, hp, creatDir, acquire_free t hfree, hsearch, hs, if_true]
      have h₂ := advance_inv h hp (by simp) ha
      rw [finish_advance hp rfl ha, finish_unlockDir h₂ (update_self ..)]
      exact ⟨_, _, rfl, iff_of_true (untouched_locked h₀) hno⟩
    | false =>
      have ha : advance t mem false (s.goto t (.creatDir name false)) =
          .ok ({ s.goto t (.creatDir name false) with dirlock := some t }.goto t (.getvnode k .lookup)) := by
        simp only [advance, hp, creatDir, acquire_free t hfree, hsearch, hs]
        rfl
      have h₂ := advance_inv h hp (by simp) ha
      obtain ⟨r, s', hfin, hright⟩ := finish_found (n := 4) h₀ hs h₂ (update_self ..) hl
      rw [finish_advance hp rfl ha]
      exact ⟨r, s', hfin, iff_of_true hright hno⟩
  | none =>
    by_cases hsem : mem.sem = true
    · have ha : advance t mem false (s.goto t (.creatDir name excl)) =
          .ok ((semfsSemCreate { s.goto t (.creatDir name excl) with dirlock := some t }).2.goto t
            (.creatInsert name (firstEmpty s) s.nextSem)) := by
        simp only [advance, hp, creatDir, acquire_free t hfree, hsearch, hs, if_pos hsem]
        rfl
      have h₂ := advance_inv h hp (by simp) ha
      have hdead : (s.sem s.nextSem).live = false := by
        by_contra hno
        exact absurd (h₀.reg.fresh s.nextSem (Bool.of_not_eq_false hno)) (Nat.lt_irrefl _)
      obtain ⟨r, s', hfin, hright⟩ := finish_insert (n := 0) h₀ hs h₂ (update_self ..) hl rfl rfl
        ⟨hdead, le_refl _, rfl, rfl, fun p hp => update_of_ne hp .., rfl, rfl, rfl⟩
      rw [finish_advance hp rfl ha]
      refine ⟨r, s', hfin, hright.trans (not_congr ?_)⟩
      exact ⟨fun hf => ⟨hdots, hs, hsem, hf.1, hf.2⟩, fun hf => ⟨hf.room, hf.entry⟩⟩
    · have ha : advance t mem false (s.goto t (.creatDir name excl)) =
          .ok ({ s.goto t (.creatDir name excl) with dirlock := some t }.goto t (.unlockDir (.error .enomem))) := by
        simp only [advance, hp, creatDir, acquire_free t hfree, hsearch, hs, if_neg hsem]
      have h₂ := advance_inv h hp (by simp) ha
      rw [finish_advance hp rfl ha, finish_unlockDir h₂ (update_self ..)]
      exact ⟨_, _, rfl, iff_of_true (untouched_locked h₀) fun hf => hsem hf.sem⟩

/-- In every state that a run leads to, a call that goes on alone returns, and
what it says is right unless the directory entry is what fails. -/
theorem creat_right_iff (as : List (T × Action)) (hrun : run step as (initial : State T) = .ok s)
    (hp : s.place t = .idle r) (hd : s.dirlock = none) (hl : s.tablelock = none) (name : Name) (excl : Bool)
    (mem : Memory) :
    ∃ r' s', semfsCreat t name excl mem s = .ok (r', s') ∧ (CreatRight s s' name r' ↔ ¬ EntryFails s name mem) := by
  have h : Inv s := by
    have hensures : Ensures _ _ (run step as initial) :=
      run_ensures (fun a s h => (step_steps (T := T) a h).1) initial_inv
    rwa [hrun] at hensures
  have hbegin := begin_steps (a := .creat name excl) h hp
  simp only [begin] at hbegin
  simp only [semfsCreat, begin]
  by_cases hdots : dots name = true
  · rw [if_pos hdots, finish_idle (update_self ..)]
    refine ⟨_, _, rfl, iff_of_true (untouched_locked h) ?_⟩
    intro hf
    rw [hf.plain] at hdots
    cases hdots
  · rw [if_neg hdots] at hbegin ⊢
    exact finish_creatDir h hbegin hd hl (Bool.of_not_eq_true hdots)

def plenty : Memory := ⟨true, true, true, true, true⟩

theorem first_created : ∃ r s', semfsCreat (0 : Fin 1) [97] true plenty initial = .ok (r, s') ∧
    CreatRight initial s' [97] r := by
  obtain ⟨r, s', hc, hright⟩ := creat_right_iff (T := Fin 1) [] rfl rfl rfl rfl [97] true plenty
  exact ⟨r, s', hc, hright.mpr fun hf => by cases hf.entry⟩

/-- Success without a name, and without a vnode. -/
theorem entry_forgotten : ∃ s', semfsCreat (0 : Fin 1) [97] true { plenty with dirent := false } initial =
    .ok (.ok none, s') ∧ search [97] s' = none ∧ ¬ CreatRight initial s' [97] (.ok none) :=
  ⟨_, rfl, rfl, id⟩

end OS161.SemDirectory
