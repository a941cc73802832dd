import OS161.SemReclaim

/-!
# The life of a semaphore

Every step keeps what the threads rely on, or stops the kernel in the one case
in which a semaphore is destroyed under its lock.
-/

set_option autoImplicit false

namespace OS161.SemDirectory

open Function OS161.Vfs OS161.References OS161.Runs

variable {T : Type} [DecidableEq T] {s s' : State T} {t u : T} {x y : Place} {o k v : ℕ}

/-- The last reference to a vnode is not given back while a `semfs_remove` that
leaves its semaphore to it has the semaphore's lock. -/
def Clear (a : T × Action) (s : State T) : Prop :=
  match s.place a.1, a.2 with
  | .reclaim v, .advance _ _ =>
    s.tablelock = none → (s.vnode v).refcount ≤ 1 → ∀ u, ¬leaves (s.vnode v).number (s.place u)
  | _, _ => True

/-- The thread stays where it is. -/
theorem goto_same {t : T} (hp : s.place t = x) : s.goto t x = s := by
  subst hp
  rw [State.goto, update_eq_self]

omit [DecidableEq T] in
/-- The number of a vnode never changes. -/
theorem number_recount (vnode : ℕ → Vnode) (v n w : ℕ) :
    (update vnode v { vnode v with refcount := n } w).number = (vnode w).number := by
  by_cases hw : w = v
  · subst hw
    rw [update_self]
  · rw [update_of_ne hw]

/-- The callers' references to one vnode change, and its count. -/
theorem Inv.recounted {r : Result} (h : Inv s) (hp : s.place t = .idle r) {n : ℕ} {held : ℕ → ℕ}
    (hb : Balanced s.vnodes (update s.vnode v { s.vnode v with refcount := n }) s.nextVnode held
      (fun u => hand (s.place u))) :
    Inv { s with vnode := update s.vnode v { s.vnode v with refcount := n }, held := held } := by
  have hsame : ({ s with vnode := update s.vnode v { s.vnode v with refcount := n }, held := held } : State T).goto t
      (.idle r) = { s with vnode := update s.vnode v { s.vnode v with refcount := n }, held := held } := goto_same hp
  rw [← hsame]
  exact h.buildRefs hp (h.dir.stay (by rw [hp])) (h.tab.stay (by rw [hp])) rfl rfl rfl rfl
    (by rwa [role_same hand s.place (by rw [hp])])
    (h.tied.keep (fun w _ => number_recount ..) (fun _ => rfl) (fun _ _ hk _ => hk)) (by rintro w ⟨⟩) rfl
    (fun w _ => ⟨Iff.rfl, number_recount ..⟩) (by rintro w - ⟨⟩) trivial

theorem vopIncref_steps {r : Result} (h : Inv s) (hp : s.place t = .idle r) : Steps (vopIncref v s) := by
  rw [vopIncref, withRef]
  split
  · exact rfl
  · next hheld =>
    simp only [vnodeIncref, if_pos (h.refs.live_of_held hheld)]
    exact h.recounted hp (h.refs.incref (Nat.pos_of_ne_zero hheld))

theorem vnodeDecref_steps {r : Result} (h : Inv s) (hp : s.place t = .idle r) : Steps (vnodeDecref t v s) := by
  rw [vnodeDecref, withRef]
  split
  · exact rfl
  · next hheld =>
    have hlive := h.refs.live_of_held hheld
    have hpos := h.refs.pos hlive
    have hdead : ¬(s.vnode v).live = false := by simp [hlive]
    simp only [if_neg hdead, if_neg (Nat.ne_of_gt hpos)]
    split
    · next hmany => exact h.recounted hp (h.refs.drop (Nat.pos_of_ne_zero hheld) hmany)
    · exact h.grabs hp (Nat.pos_of_ne_zero hheld) rfl rfl rfl rfl rfl rfl ⟨rfl, rfl⟩ rfl trivial

theorem beginUse_steps {r : Result} (h : Inv s) (hp : s.place t = .idle r) : Steps (beginUse t v s) := by
  rw [beginUse, withRef]
  split
  · exact rfl
  · next hheld =>
    split
    · exact rfl
    · next hroot => exact h.grabs hp (Nat.pos_of_ne_zero hheld) rfl rfl rfl rfl rfl rfl ⟨rfl, rfl⟩ rfl hroot

theorem begin_steps {r : Result} {a : Action} (h : Inv s) (hp : s.place t = .idle r) : Steps (begin t a s) := by
  have hquiet : ∀ x, inDir x = false → inTable x = false → lockOf x = none → owns x = none → detached x = none →
      touches x = none → hand x = none → gone x = none → Facts s x → Steps (.ok (s.goto t x)) := by
    intro x hd ht hl ho hdt htc hh hg hf
    exact h.quiet hp (h.dir.stay (by rw [hp, hd]; rfl)) (h.tab.stay (by rw [hp, ht]; rfl)) hl ho hdt htc hh hg rfl hf
  cases a with
  | getroot => exact hquiet _ rfl rfl rfl rfl rfl rfl rfl rfl rfl
  | creat name excl =>
    simp only [begin]
    split <;> exact hquiet _ rfl rfl rfl rfl rfl rfl rfl rfl trivial
  | lookup dirvn path =>
    simp only [begin]
    split
    · exact vopIncref_steps h hp
    · exact hquiet _ rfl rfl rfl rfl rfl rfl rfl rfl trivial
  | remove name =>
    simp only [begin]
    split <;> exact hquiet _ rfl rfl rfl rfl rfl rfl rfl rfl trivial
  | incref v => exact vopIncref_steps h hp
  | decref v => exact vnodeDecref_steps h hp
  | use v => exact beginUse_steps h hp
  | advance mem wait => exact rfl

theorem advance_steps {mem : Memory} {wait : Bool} (h : Inv s) (hno : ∀ v, s.place t ≠ .reclaim v) :
    Steps (advance t mem wait s) := by
  have hf := h.facts t
  rw [advance]
  cases hp : s.place t with
  | idle r => exact rfl
  | creatDir name excl => exact creatDir_steps h hp
  | creatInsert name e o => exact creatInsert_steps h hp
  | creatInserted name e o r => exact creatInserted_steps h hp
  | getvnode k c => exact getvnode_steps h hp
  | gotvnode k c r => exact gotvnode_steps h hp
  | creatUninsert k o r => exact creatUninsert_steps h hp
  | creatUninserted o r => exact creatUninserted_steps h hp
  | lookupDir name => exact lookupDir_steps h hp
  | unlockDir r => exact unlockDir_steps h hp
  | removeDir name => exact removeDir_steps h hp
  | removeGet i k => exact removeGet_steps h hp
  | removeGot i k o =>
    rw [hp] at hf
    exact h.unlockTable hp rfl rfl rfl rfl rfl rfl rfl rfl rfl rfl hf
  | removeLock i k o => exact removeLock_steps h hp
  | removeTable i k o => exact removeTable_steps h hp
  | removeTabled i k o =>
    rw [hp] at hf
    exact h.unlockTable hp rfl rfl rfl rfl rfl rfl rfl rfl rfl rfl hf
  | removeUnlock i k o d => exact removeUnlock_steps h hp
  | reclaim v => exact absurd hp (hno v)
  | reclaimBusy => exact h.unlockTable hp rfl rfl rfl rfl rfl rfl rfl rfl rfl rfl trivial
  | reclaimed v => exact semfsVnodeDestroy_steps h hp
  | useGet v => exact useGet_steps h hp
  | useGot v o =>
    rw [hp] at hf
    exact h.unlockTable hp rfl rfl rfl rfl rfl rfl rfl rfl rfl rfl hf
  | useLock v o => exact useLock_steps h hp
  | useUnlock v o => exact useUnlock_steps h hp

/-- A step leads on, waits, or stops the kernel, and does the last exactly if it
is not clear. -/
theorem step_steps (a : T × Action) (h : Inv s) :
    Ensures (fun e => e = .blocked ∨ e = .panic) Inv (step a s) ∧ (Clear a s ↔ step a s ≠ .error .panic) := by
  have hplain : ∀ x : Except Stop (State T), Steps x → Clear a s →
      Ensures (fun e => e = .blocked ∨ e = .panic) Inv x ∧ (Clear a s ↔ x ≠ .error .panic) := by
    intro x hx hc
    cases x with
    | ok s' => exact ⟨hx, by simpa using hc⟩
    | error e =>
      obtain rfl : e = .blocked := hx
      exact ⟨.inl rfl, by simpa using hc⟩
  obtain ⟨t, act⟩ := a
  cases act with
  | advance mem wait =>
    by_cases hr : ∃ v, s.place t = .reclaim v
    · obtain ⟨v, hp⟩ := hr
      obtain ⟨hsteps, hstop⟩ := semfsReclaim_steps h hp
      have hstep : step (t, .advance mem wait) s = semfsReclaim t v s := by simp [step, advance, hp]
      rw [hstep]
      refine ⟨hsteps, ?_⟩
      rw [Ne, hstop]
      simp [Clear, hp]
    · have hno : ∀ v, s.place t ≠ .reclaim v := fun v hp => hr ⟨v, hp⟩
      have hstep : step (t, .advance mem wait) s = advance t mem wait s := by simp [step]
      rw [hstep]
      refine hplain _ (advance_steps h hno) ?_
      simp only [Clear]
      split
      · next v mem' wait' hp _ => exact absurd hp (hno _)
      · trivial
  | _ =>
    refine hplain _ ?_ (by simp only [Clear]; split <;> simp_all)
    simp only [step]
    split
    · simp_all
    · next hp _ => exact begin_steps h hp
    · exact rfl

omit [DecidableEq T] in
theorem initial_inv : Inv (initial : State T) := by
  constructor
  · simp [Owner, initial, inDir]
  · simp [Owner, initial, inTable]
  · simp [Owner, initial, lockOf]
  · constructor <;> simp [initial, Sem.flags, owns, detached]
  · constructor <;> simp [initial]
  · exact balanced_empty
  · constructor <;> simp [initial, Sem.flags]
  · simp [initial, hand]
  · simp [initial, gone]
  · exact fun _ => trivial

/-- What holds between any two steps. -/
structure Consistent (s : State T) : Prop where
  /-- An entry names a live semaphore, in the table until the thread that removes
  the entry has taken it out. -/
  entries : ∀ i d, s.dents i = some d →
    (∃ o, s.sems d.semnum = some o ∧ (s.sem o).live = true) ∨
    ∃ t o, s.dirlock = some t ∧ (s.sem o).live = true ∧
      (s.place t = .removeTabled i d.semnum o ∨ s.place t = .removeUnlock i d.semnum o true)
  one : ∀ v ∈ s.vnodes, ∀ w ∈ s.vnodes, (s.vnode v).number = (s.vnode w).number → v = w
  flagged : ∀ k o, s.sems k = some o →
    ((s.sem o).hasvnode = true ↔ ∃ v ∈ s.vnodes, (s.vnode v).number = k)
  /-- A vnode out of the table is about to be freed. -/
  freed : ∀ v, (s.vnode v).live = true → v ∈ s.vnodes ∨ ∃ t, s.tablelock = some t ∧ s.place t = .reclaimed v
  listed : ∀ v ∈ s.vnodes, (s.vnode v).number = SEMFS_ROOTDIR ∨ ∃ o, s.sems (s.vnode v).number = some o
  /-- A semaphore that is gone was unlinked, without vnode and not locked. -/
  gone : ∀ o, (s.sem o).live = false →
    (s.sem o).linked = false ∧ (s.sem o).hasvnode = false ∧ (s.sem o).lock = none
  /-- One that nothing keeps is about to be linked or destroyed by one thread. -/
  kept : ∀ o, (s.sem o).live = true → (s.sem o).linked = false → (s.sem o).hasvnode = false →
    ∃ t, owns (s.place t) = some o ∧ ∀ u, owns (s.place u) = some o → u = t

omit [DecidableEq T] in
theorem owns_inDir (hy : owns y = some o) : inDir y = true := by
  by_contra hno
  simp [owns_outside y (by simpa using hno)] at hy

omit [DecidableEq T] in
/-- The entry that a thread is working on. -/
theorem Inv.entry_live (h : Inv s) {i : ℕ} {d : Direntry} (hd : s.dents i = some d) (hu : touches (s.place u) = some i) :
    (∃ o, s.sems d.semnum = some o ∧ (s.sem o).live = true) ∨
    ∃ t o, s.dirlock = some t ∧ (s.sem o).live = true ∧
      (s.place t = .removeTabled i d.semnum o ∨ s.place t = .removeUnlock i d.semnum o true) := by
  have hf := h.facts u
  have howned := h.reg.owned u
  have hnum : ∀ {k}, EntryAt s i k → k = d.semnum := by
    rintro k ⟨e, he, rfl⟩
    rw [hd] at he
    cases he
    rfl
  have hin : ∀ {k o}, EntryAt s i k → s.sems k = some o → ∃ o, s.sems d.semnum = some o ∧ (s.sem o).live = true := by
    intro k o hk hs
    obtain rfl := hnum hk
    exact ⟨o, hs, h.reg.live _ _ hs⟩
  cases hp : s.place u with
  | getvnode k c =>
    rw [hp] at hu hf
    cases c <;> cases hu
    exact .inl (hin hf.1 hf.2)
  | gotvnode k c r =>
    rw [hp] at hu hf
    cases c <;> cases hu
    exact .inl (hin hf.1 hf.2.1)
  | removeTable j k o =>
    rw [hp] at hu hf
    cases hu
    exact .inl (hin hf.1 hf.2)
  | removeTabled j k o =>
    rw [hp] at hu hf howned
    cases hu
    obtain rfl := hnum hf
    exact .inr ⟨u, o, h.dir_eq hp rfl, (howned o rfl).1, .inl hp⟩
  | removeUnlock j k o b =>
    rw [hp] at hu hf howned
    cases hu
    cases b with
    | true =>
      obtain rfl := hnum hf
      exact .inr ⟨u, o, h.dir_eq hp rfl, (howned o rfl).1, .inr hp⟩
    | false => exact .inl (hin hf.1 hf.2.1)
  | _ =>
    rw [hp] at hu
    cases hu

theorem reclaimed_of_gone (hy : gone y = some v) : y = .reclaimed v := by
  cases y <;> simp_all [gone]

omit [DecidableEq T] in
theorem Inv.consistent (h : Inv s) : Consistent s := by
  refine ⟨?_, h.refs.unique, ?_, ?_, ?_, ?_, ?_⟩
  · intro i d hd
    obtain ⟨u, hu⟩ | ⟨o, hs, -⟩ := h.direc.named i d hd
    · exact h.entry_live hd hu
    · exact .inl ⟨o, hs, h.reg.live _ _ hs⟩
  · intro k o hs
    exact ⟨fun hv => h.vnode_of_flag hs hv, fun ⟨v, hv, hk⟩ => h.flag_of_vnode hs hv hk⟩
  · intro v hv
    by_contra hno
    rw [not_or] at hno
    -- somebody has the reference that is left
    obtain ⟨S, hS, hcount, hpos⟩ := h.refs.count v hv
    have hheld : s.held v = 0 := Nat.eq_zero_of_not_pos (fun hp => hno.1 (h.refs.outside v hp))
    obtain ⟨t, ht⟩ := Finset.card_pos.mp (show 0 < S.card by omega)
    obtain hg | hm := h.loaded t v ((hS t).mp ht)
    · have hp := reclaimed_of_gone hg
      exact hno.2 ⟨t, h.tab_eq hp rfl, hp⟩
    · exact hno.1 hm
  · intro v hv
    exact (h.tied.flagged v hv).imp_right (fun ⟨o, ho, _⟩ => ⟨o, ho⟩)
  · intro o ho
    exact ⟨(h.reg.dead o ho).1, (h.reg.dead o ho).2, h.dead_unlocked ho⟩
  · intro o ho hl hv
    obtain hlk | hvn | ⟨t, ht⟩ := h.reg.needed o ho
    · have : (s.sem o).linked = true := hlk
      simp [hl] at this
    · have : (s.sem o).hasvnode = true := hvn
      simp [hv] at this
    · exact ⟨t, ht, fun u hu => h.alone (owns_inDir ht) owns_outside hu⟩

/-- The semaphores, their entries and their vnodes stay consistent as long as the
kernel runs, and what can stop it is the destruction of a semaphore whose lock
is held: exactly if the last reference to a vnode is given back while a remove
that leaves the semaphore to it has the lock. -/
theorem semfs_consistent (as : List (T × Action)) :
    (∀ s, Runs.run step as (initial : State T) = .ok s → Consistent s) ∧
    (∀ e, Runs.run step as (initial : State T) = .error e → e = .blocked ∨ e = .panic) ∧
    (Guarded step Clear as (initial : State T) ↔ Runs.run step as (initial : State T) ≠ .error .panic) := by
  have hstep : ∀ a (s s' : State T), Inv s → step a s = .ok s' → Inv s' := by
    intro a s s' h hs
    have he := (step_steps a h).1
    rwa [hs] at he
  have hrun : Ensures _ Inv (Runs.run step as (initial : State T)) :=
    run_ensures (fun a s h => (step_steps (T := T) a h).1) initial_inv
  refine ⟨?_, ?_, guarded_iff hstep (fun a s h => (step_steps a h).2) initial_inv⟩
  · intro s hs
    rw [hs] at hrun
    exact Inv.consistent hrun
  · intro e he
    rwa [he] at hrun

/-- Thread 0 makes a semaphore and removes it; thread 1 closes it in between. -/
def closedWhileRemoved : List (Fin 2 × Action) :=
  (0, .creat [97] true) :: List.replicate 6 (0, .advance ⟨true, true, true, true, true⟩ false) ++
    (0, .remove [97]) :: List.replicate 4 (0, .advance ⟨true, true, true, true, true⟩ false) ++
    [(1, .decref 0), (1, .advance ⟨true, true, true, true, true⟩ false)]

theorem destroyed_while_locked : Runs.run step closedWhileRemoved initial = .error .panic := by decide +kernel

end OS161.SemDirectory
