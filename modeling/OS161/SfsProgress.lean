import Mathlib.Algebra.BigOperators.Group.Finset.Basic
import Mathlib.Data.Fintype.Basic
import OS161.SfsLife

/-!
# Every call comes to its end

Threads wait for `vfs_biglock` only, and only the thread that has it can go on. With
finitely many threads there is always a way to let all calls come to their end, and
its length is bounded by how far the threads have come.
-/

set_option autoImplicit false

namespace OS161.SfsThreads

open Function OS161.Vfs OS161.SfsVolume OS161.References OS161.Runs

/-- How many steps a call may still take, where an acquisition of the lock is worth one step more. -/
def Place.rank : Place → ℕ
  | .idle _ => 0
  | .leaving _ => 1
  | .erasing _ _ => 2
  | .checking _ _ => 3
  | .reclaiming _ _ => 5
  | .dropping _ _ => 6
  | .working _ => 7
  | .entering _ => 9

variable {T : Type} [DecidableEq T] {s s' : State T} {t u : T} {x : Place} {c : Call} {o : Outcome} {mem : Memory} {d : ℕ}
  {back : Option Result} {r : Result} {vol : Volume} {as : List (T × Action)} {a : T × Action}

/-- The lock has a holder exactly while it is held. -/
def Locks (s : State T) : Prop := s.holder = none ↔ s.depth = 0

theorem rank_le (x : Place) : x.rank ≤ 9 := by
  cases x <;> simp [Place.rank]

theorem resumed_rank (back : Option Result) : (resumed back).rank ≤ 1 := by
  cases back <;> simp [resumed, Place.rank]

theorem acquire_free (h : Locks s) (hfree : s.holder = none ∨ s.holder = some t) :
    ∃ s', acquire t s = .ok s' ∧ s' = { s with holder := s'.holder, depth := s.depth + 1 } ∧ Locks s' := by
  unfold acquire
  obtain hnone | hsome := hfree
  · rw [hnone]
    exact ⟨_, rfl, by rw [h.mp hnone], by simp [Locks]⟩
  · rw [hsome]
    dsimp only
    rw [if_pos rfl]
    exact ⟨_, rfl, rfl, by simp [Locks]⟩

theorem release_held (h : 0 < nest s t) :
    ∃ s', release t s = .ok s' ∧ s' = { s with holder := s'.holder, depth := s.depth - 1 } ∧ Locks s' := by
  unfold nest at h
  split at h
  · next ht =>
    rw [release, if_neg (by rintro (hne | hzero); exacts [hne ht, absurd hzero (Nat.ne_of_gt h)])]
    split
    · next hone => exact ⟨_, rfl, by rw [hone], by simp [Locks]⟩
    · next hmany =>
      refine ⟨_, rfl, rfl, iff_of_false (by simp [ht]) ?_⟩
      show s.depth - 1 ≠ 0
      omega
  · exact absurd h (Nat.lt_irrefl 0)

theorem nest_depth (h : 0 < nest s t) : 0 < s.depth ∧ s.holder = some t := by
  unfold nest at h
  split at h
  · next ht => exact ⟨h, ht⟩
  · exact absurd h (Nat.lt_irrefl 0)

/-- A step that brings the thread nearer to the end of its call. -/
def Nearer (t : T) (s : State T) (next : Except Stop (State T)) : Prop :=
  ∃ s' x, next = .ok s' ∧ s'.place = update s.place t x ∧ x.rank + s'.depth < (s.place t).rank + s.depth ∧ Locks s'

/-- A thread that does not wait for another one goes on. -/
theorem advance_nearer (h : Inv s) (hl : Locks s) (hfree : s.holder = none ∨ s.holder = some t)
    (hbusy : ∀ r, s.place t ≠ .idle r) (mem : Memory) : Nearer t s (advance t mem s) := by
  have hf := h.facts t
  cases hx : s.place t with
  | idle r => exact absurd hx (hbusy r)
  | entering c =>
    obtain ⟨s₁, hrun, heq, hl₁⟩ := acquire_free hl hfree
    simp only [advance, hx, hrun]
    refine ⟨_, .working c, rfl, ?_, ?_, hl₁⟩
    · rw [heq]
      rfl
    · show 7 + s₁.depth < _
      rw [heq, hx]
      simp only [Place.rank]
      omega
  | working c =>
    obtain ⟨o, vol, hrun, -⟩ := body_does h.ready h.laid (h.valid hx) mem
    simp only [advance, hx, hrun]
    refine ⟨_, _, rfl, rfl, ?_, hl⟩
    show _ + s.depth < _
    rw [hx]
    cases o.drop <;> simp [Place.rank]
  | dropping d r =>
    rw [hx] at hf
    simp only [advance, hx, vnodeDecref, vnodeCheck_ok h (h.refs.inHand _ d hf.2)]
    by_cases hmany : 1 < (s.vol.vnode d).refcount
    · simp only [if_pos hmany]
      refine ⟨_, .leaving r, rfl, rfl, ?_, hl⟩
      show 1 + s.depth < _
      rw [hx]
      simp [Place.rank]
    · simp only [if_neg hmany]
      refine ⟨_, .reclaiming d (some r), rfl, rfl, ?_, hl⟩
      show 5 + s.depth < _
      rw [hx]
      simp [Place.rank]
  | reclaiming d back =>
    rw [hx] at hf
    obtain ⟨s₁, hrun, heq, hl₁⟩ := acquire_free hl hfree
    simp only [advance, hx, vnodeCheck_ok h (h.refs.inHand _ d hf.1), hrun]
    refine ⟨_, .checking d back, rfl, ?_, ?_, hl₁⟩
    · rw [heq]
      rfl
    · show 3 + s₁.depth < _
      rw [heq, hx]
      simp only [Place.rank]
      omega
  | checking d back =>
    rw [hx] at hf
    have hlive := h.refs.inHand _ d hf.1
    simp only [advance, hx, hlive, Bool.true_eq_false, if_false]
    split
    · refine ⟨_, .erasing d back, rfl, rfl, ?_, hl⟩
      show 2 + s.depth < _
      rw [hx]
      simp [Place.rank]
    · rw [if_neg (Nat.ne_of_gt (h.refs.pos hlive))]
      generalize hs₁ : ({ s with hand := update s.hand (t, true) none }.setVol
        (recount d ((s.vol.vnode d).refcount - 1) s.vol) : State T) = s₁
      have hnest₁ : nest s₁ t = nest s t := by
        subst hs₁
        rfl
      obtain ⟨s₂, hrun, heq, hl₂⟩ := release_held (s := s₁) (t := t) (by rw [hnest₁]; exact hf.2.2.1)
      rw [hrun]
      subst hs₁
      refine ⟨_, resumed back, rfl, ?_, ?_, hl₂⟩
      · rw [heq]
        rfl
      · show _ + s₂.depth < _
        rw [heq, hx]
        have hrank := resumed_rank back
        show (resumed back).rank + (s.depth - 1) < 3 + s.depth
        omega
  | erasing d back =>
    rw [hx] at hf
    obtain ⟨vol, herase, -⟩ := sfsErase_erases h.ready (h.inTable hf.1) hf.2.2.2.2
    simp only [advance, hx, herase]
    generalize hs₁ : ({ s with hand := update s.hand (t, true) none }.setVol vol : State T) = s₁
    have hnest₁ : nest s₁ t = nest s t := by
      subst hs₁
      rfl
    obtain ⟨s₂, hrun, heq, hl₂⟩ := release_held (s := s₁) (t := t) (by rw [hnest₁]; exact hf.2.2.1)
    rw [hrun]
    subst hs₁
    refine ⟨_, resumed back, rfl, ?_, ?_, hl₂⟩
    · rw [heq]
      rfl
    · show _ + s₂.depth < _
      rw [heq, hx]
      have hrank := resumed_rank back
      show (resumed back).rank + (s.depth - 1) < 2 + s.depth
      omega
  | leaving r =>
    rw [hx] at hf
    obtain ⟨s₁, hrun, heq, hl₁⟩ := release_held hf
    simp only [advance, hx, hrun]
    have hgive : ∀ (y : T × Bool) (s : State T),
        (s.give y).place = s.place ∧ (s.give y).depth = s.depth ∧ (s.give y).holder = s.holder := by
      intro y s
      rw [(give_eq y s).2]
      exact ⟨rfl, rfl, rfl⟩
    refine ⟨_, .idle r, rfl, ?_, ?_, ?_⟩
    · show update ((s₁.give (t, false)).give (t, true)).place t (.idle r) = _
      rw [(hgive _ _).1, (hgive _ _).1, heq]
    · show 0 + ((s₁.give (t, false)).give (t, true)).depth < _
      rw [(hgive _ _).2.1, (hgive _ _).2.1, heq, hx]
      simp only [Place.rank]
      omega
    · show ((s₁.give (t, false)).give (t, true)).holder = none ↔ ((s₁.give (t, false)).give (t, true)).depth = 0
      rw [(hgive _ _).2.1, (hgive _ _).2.1, (hgive _ _).2.2, (hgive _ _).2.2]
      exact hl₁

/-! The lock over a run. -/

theorem acquire_locks (hl : Locks s) (h : acquire t s = .ok s') : Locks s' ∧ (s.holder = none ∨ s.holder = some t) := by
  have hfree : s.holder = none ∨ s.holder = some t := by
    unfold acquire at h
    split at h
    · next hnone => exact .inl hnone
    · next u hu =>
      split at h
      · next hut => exact .inr (hut ▸ hu)
      · cases h
  obtain ⟨s₁, hrun, -, hl₁⟩ := acquire_free hl hfree
  rw [hrun] at h
  cases h
  exact ⟨hl₁, hfree⟩

/-- A thread that goes on has the lock, or nobody has. -/
theorem advance_free (h : Inv s) (hl : Locks s) (hs : advance t mem s = .ok s') :
    (s.holder = none ∨ s.holder = some t) ∧ ∀ r, s.place t ≠ .idle r := by
  have hf := h.facts t
  cases hx : s.place t with
  | idle r =>
    simp only [advance, hx] at hs
    cases hs
  | entering c =>
    simp only [advance, hx] at hs
    obtain ⟨s₁, hrun, -⟩ := map_ok hs
    exact ⟨(acquire_locks hl hrun).2, by simp⟩
  | reclaiming d back =>
    rw [hx] at hf
    simp only [advance, hx, vnodeCheck_ok h (h.refs.inHand _ d hf.1)] at hs
    obtain ⟨s₁, hrun, -⟩ := map_ok hs
    exact ⟨(acquire_locks hl hrun).2, by simp⟩
  | working c =>
    rw [hx] at hf
    exact ⟨.inr (nest_depth hf.1).2, by simp⟩
  | dropping d r =>
    rw [hx] at hf
    exact ⟨.inr (nest_depth hf.1).2, by simp⟩
  | checking d back =>
    rw [hx] at hf
    exact ⟨.inr (nest_depth hf.2.2.1).2, by simp⟩
  | erasing d back =>
    rw [hx] at hf
    exact ⟨.inr (nest_depth hf.2.2.1).2, by simp⟩
  | leaving r =>
    rw [hx] at hf
    exact ⟨.inr (nest_depth hf).2, by simp⟩

theorem begin_lock (h : begin t c s = .ok s') : s'.holder = s.holder ∧ s'.depth = s.depth := by
  unfold begin at h
  split at h
  · cases h
    exact ⟨rfl, rfl⟩
  · split at h
    · cases h
    · split at h
      · cases h
      · split at h
        · cases h
          exact ⟨rfl, rfl⟩
        · dsimp only at h
          split at h
          · cases h
            exact ⟨rfl, rfl⟩
          · split at h
            · cases h
            · cases h
              exact ⟨rfl, rfl⟩

theorem decref_lock {v : ℕ} (h : callerDecref t v s = .ok s') : s'.holder = s.holder ∧ s'.depth = s.depth := by
  unfold callerDecref at h
  split at h
  · cases h
  · split at h <;> cases h <;> exact ⟨rfl, rfl⟩

theorem step_locks (h : Inv s) (hl : Locks s) (hs : step a s = .ok s') : Locks s' := by
  obtain ⟨t, act⟩ := a
  cases act with
  | advance mem =>
    have hadvance : advance t mem s = .ok s' := hs
    obtain ⟨hfree, hbusy⟩ := advance_free h hl hadvance
    obtain ⟨s₁, x, hrun, -, -, hl₁⟩ := advance_nearer h hl hfree hbusy mem
    rw [hadvance] at hrun
    cases hrun
    exact hl₁
  | call c =>
    obtain ⟨-, hrun⟩ := whenIdle_ok hs
    obtain ⟨hholder, hdepth⟩ := begin_lock hrun
    rwa [Locks, hholder, hdepth]
  | incref v =>
    obtain ⟨-, hrun⟩ := whenIdle_ok hs
    unfold callerIncref at hrun
    split at hrun
    · cases hrun
    · cases hrun
      exact hl
  | decref v =>
    obtain ⟨-, hrun⟩ := whenIdle_ok hs
    obtain ⟨hholder, hdepth⟩ := decref_lock hrun
    rwa [Locks, hholder, hdepth]
  | acquire =>
    obtain ⟨-, hrun⟩ := whenIdle_ok hs
    exact (acquire_locks hl hrun).1
  | release =>
    obtain ⟨-, hrun⟩ := whenIdle_ok hs
    split at hrun
    · cases hrun
    · next hnest =>
      obtain ⟨s₁, hrun₁, -, hl₁⟩ := release_held (Nat.pos_of_ne_zero hnest)
      rw [hrun] at hrun₁
      cases hrun₁
      exact hl₁

theorem run_locks (h : Starts vol) (hrun : runs as (mounted vol) = .ok s) : Inv s ∧ Locks s := by
  have hstep : ∀ (a : T × Action) s s', Inv s ∧ Locks s → step a s = .ok s' → Inv s' ∧ Locks s' :=
    fun a s s' hi hs => ⟨hi.1.steps hs, step_locks hi.1 hi.2 hs⟩
  exact run_invariant hstep ⟨starts_inv h, by simp [Locks, mounted]⟩ hrun

/-- An idle thread that has the lock gives it back. -/
theorem release_nearer (hl : Locks s) (hholder : s.holder = some t) (hx : s.place t = .idle r) : Nearer t s (step (t, .release) s) := by
  have hpos : 0 < nest s t := by
    rw [nest, if_pos hholder]
    refine Nat.pos_of_ne_zero fun hzero => ?_
    rw [hl.mpr hzero] at hholder
    cases hholder
  obtain ⟨s₁, hrun, heq, hl₁⟩ := release_held hpos
  have hdepth := (nest_depth hpos).1
  refine ⟨s₁, .idle r, ?_, ?_, ?_, hl₁⟩
  · simp only [step, whenIdle, hx, if_neg (Nat.ne_of_gt hpos), hrun]
  · rw [← hx, update_eq_self, heq]
  · rw [heq, hx]
    show _ + (s.depth - 1) < _ + s.depth
    omega

/-! Coming to an end. -/

variable [Fintype T]

/-- How many steps all calls may still take, and releases of the lock. -/
def ahead (s : State T) : ℕ := (∑ t, (s.place t).rank) + s.depth

omit [DecidableEq T] in
theorem ahead_le (s : State T) : ahead s ≤ 9 * Fintype.card T + s.depth := by
  have hsum : ∑ t, (s.place t).rank ≤ ∑ _t : T, 9 := Finset.sum_le_sum fun t _ => rank_le _
  rw [Finset.sum_const, Finset.card_univ, smul_eq_mul] at hsum
  unfold ahead
  omega

theorem Nearer.ahead {next : Except Stop (State T)} (h : Nearer t s next) : ∃ s', next = .ok s' ∧ ahead s' < ahead s ∧ Locks s' := by
  obtain ⟨s', x, hrun, hplace, hless, hl⟩ := h
  refine ⟨s', hrun, ?_, hl⟩
  have hsum : ∑ u, (s'.place u).rank + (s.place t).rank = ∑ u, (s.place u).rank + x.rank := by
    rw [← Finset.add_sum_erase _ _ (Finset.mem_univ t), ← Finset.add_sum_erase _ (fun u => (s.place u).rank) (Finset.mem_univ t), hplace]
    have hrest : ∑ u ∈ Finset.univ.erase t, (update s.place t x u).rank = ∑ u ∈ Finset.univ.erase t, (s.place u).rank :=
      Finset.sum_congr rfl fun u hu => by rw [update_of_ne (Finset.ne_of_mem_erase hu)]
    rw [hrest, update_self]
    omega
  unfold SfsThreads.ahead
  omega

/-- Nobody is in a call, and nobody has the lock. -/
def Over (s : State T) : Prop := (∀ t, ∃ r, s.place t = .idle r) ∧ s.holder = none

/-- While it is not over somebody can go on. -/
theorem goes_on (h : Inv s) (hl : Locks s) (hnot : ¬Over s) (mem : Memory) :
    ∃ t act s', (act = .release ∨ act = .advance mem) ∧ step (t, act) s = .ok s' ∧ ahead s' < ahead s ∧ Locks s' := by
  cases hholder : s.holder with
  | some u =>
    by_cases hidle : ∃ r, s.place u = .idle r
    · obtain ⟨r, hx⟩ := hidle
      obtain ⟨s', hrun, hless, hl'⟩ := (release_nearer hl hholder hx).ahead
      exact ⟨u, .release, s', .inl rfl, hrun, hless, hl'⟩
    · obtain ⟨s', hrun, hless, hl'⟩ := (advance_nearer h hl (.inr hholder) (fun r hx => hidle ⟨r, hx⟩) mem).ahead
      exact ⟨u, .advance mem, s', .inr rfl, hrun, hless, hl'⟩
  | none =>
    obtain ⟨t, ht⟩ : ∃ t, ∀ r, s.place t ≠ .idle r := by
      by_contra hno
      push Not at hno
      exact hnot ⟨hno, hholder⟩
    obtain ⟨s', hrun, hless, hl'⟩ := (advance_nearer h hl (.inl hholder) ht mem).ahead
    exact ⟨t, .advance mem, s', .inr rfl, hrun, hless, hl'⟩

/-- A call goes on, or a thread that is in no call gives the lock back. -/
def Action.Ends (act : Action) : Prop := act = .release ∨ ∃ mem, act = .advance mem

theorem step_nearer (h : Inv s) (hl : Locks s) (hends : a.2.Ends) (hs : step a s = .ok s') : ahead s' < ahead s ∧ Locks s' := by
  obtain ⟨t, act⟩ := a
  have hnearer : Nearer t s (step (t, act) s) := by
    obtain rfl | ⟨mem, rfl⟩ := hends
    · obtain ⟨⟨r, hx⟩, hrun⟩ := whenIdle_ok hs
      split at hrun
      · cases hrun
      · next hnest => exact release_nearer hl (nest_depth (Nat.pos_of_ne_zero hnest)).2 hx
    · have hadvance : advance t mem s = .ok s' := hs
      obtain ⟨hfree, hbusy⟩ := advance_free h hl hadvance
      exact advance_nearer h hl hfree hbusy mem
  obtain ⟨s₁, hrun, hless, hl₁⟩ := hnearer.ahead
  rw [hs] at hrun
  cases hrun
  exact ⟨hless, hl₁⟩

theorem steps_bounded (h : Inv s) (hl : Locks s) (hends : ∀ a ∈ as, a.2.Ends) (hrun : runs as s = .ok s') :
    as.length + ahead s' ≤ ahead s ∧ Inv s' ∧ Locks s' := by
  induction as generalizing s with
  | nil =>
    cases hrun
    exact ⟨Nat.le_of_eq (Nat.zero_add _), h, hl⟩
  | cons a as ih =>
    obtain ⟨s₁, hs, hrest⟩ := run_cons_ok.mp hrun
    obtain ⟨hless, hl₁⟩ := step_nearer h hl (hends a List.mem_cons_self) hs
    obtain ⟨hbound, hi', hl'⟩ := ih (h.steps hs) hl₁ (fun b hb => hends b (List.mem_cons_of_mem a hb)) hrest
    refine ⟨?_, hi', hl'⟩
    rw [List.length_cons]
    omega

/-- From every state that a run reaches, the calls come to their end in every order in which the threads may go on:
in a number of steps that is bounded, and never with all of them waiting. -/
theorem run_ends {as' : List (T × Action)} (h : Starts vol) (hrun : runs as (mounted vol) = .ok s) (hends : ∀ a ∈ as', a.2.Ends)
    (hrun' : runs as' s = .ok s') : as'.length ≤ 9 * Fintype.card T + s.depth ∧
      ((∀ t, ∃ r, s'.place t = .idle r) ∧ s'.holder = none ∨
        ∀ mem, ∃ t act s₁, (act = .release ∨ act = .advance mem) ∧ step (t, act) s' = .ok s₁) := by
  obtain ⟨hinv, hl⟩ := run_locks h hrun
  obtain ⟨hbound, hinv', hl'⟩ := steps_bounded hinv hl hends hrun'
  have hle := ahead_le s
  refine ⟨by omega, ?_⟩
  by_cases hover : Over s'
  · exact .inl hover
  · refine .inr fun mem => ?_
    obtain ⟨t, act, s₁, hact, hstep, -⟩ := goes_on hinv' hl' hover mem
    exact ⟨t, act, s₁, hact, hstep⟩

theorem making_ends : ∃ (vol : Volume) (s s' : State Bool), Starts vol ∧
    runs [(true, .call .getroot), (false, .call .getroot)] (mounted vol) = .ok s ∧ runs [(true, goOn)] s = .ok s' ∧
    [((true : Bool), goOn)].length ≤ 9 * Fintype.card Bool + s.depth ∧
      ((∀ t, ∃ r, s'.place t = .idle r) ∧ s'.holder = none ∨
        ∀ mem, ∃ t act s₁, (act = .release ∨ act = .advance mem) ∧ step (t, act) s' = .ok s₁) := by
  obtain ⟨-, vol, -, -, -, -, -, hstarts, -⟩ := making_runs
  have hends : ∀ a ∈ [((true : Bool), goOn)], a.2.Ends := fun a ha => .inr ⟨_, congrArg Prod.snd (List.mem_singleton.mp ha)⟩
  have hrun : runs [((true : Bool), .call .getroot), (false, .call .getroot)] (mounted vol) = .ok _ := rfl
  exact ⟨vol, _, _, hstarts, hrun, rfl, run_ends hstarts hrun hends rfl⟩

end OS161.SfsThreads
