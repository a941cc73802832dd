import OS161.Chains
import OS161.Runs

/-!
# The deadlock detector

Actors wait for lockables and lockables are held by actors. Each call of the
detector runs under `hangman_lock`, whose own lockable it does not follow. The
loop of `hangman_check` is given a number of rounds; running out of them is a
stop of its own, so that the loop ends is something to be proved.
-/

set_option autoImplicit false

namespace OS161.Hangman

open Function Relation OS161.Chains

variable {A L : Type}

structure State (A L : Type) where
  waiting : A → Option L
  holding : L → Option A

def initial : State A L := ⟨fun _ => none, fun _ => none⟩

/-- How a call ends that does not return. `deadlock` carries what is printed:
the target, the start, and the actors between them with what they wait for. -/
inductive Stop (A L : Type) where
  | deadlock (target : A) (start : L) (trail : List (A × Option L))
  | alreadyWaiting
  | notWaiting (l : L)
  | stillHeld (l : L) (a : A)
  | waitingForSomething
  | notTheHolder
  | looping

inductive Search where
  | found
  | absent
  | looping
  deriving DecidableEq

section Check

variable [DecidableEq A]

/-- The loop of `hangman_check`. -/
def checkLoop (s : State A L) (target : A) : ℕ → Option A → Search
  | _, none => .absent
  | 0, some _ => .looping
  | n+1, some cur =>
    if cur = target then .found
    else match s.waiting cur with
      | none => .absent
      | some l => checkLoop s target n (s.holding l)

/-- The loop that prints the cycle. -/
def printLoop (s : State A L) (target : A) : ℕ → Option A → List (A × Option L)
  | _, none => []
  | 0, some _ => []
  | n+1, some cur =>
    if cur = target then []
    else (cur, s.waiting cur)::printLoop s target n ((s.waiting cur).bind s.holding)

def hangmanCheck (n : ℕ) (start : L) (target : A) (s : State A L) : Except (Stop A L) Unit :=
  match checkLoop s target n (s.holding start) with
  | .found => .error (.deadlock target start (printLoop s target n (s.holding start)))
  | .absent => .ok ()
  | .looping => .error .looping

end Check

section Calls

variable [DecidableEq A] [DecidableEq L]

-- the lockable inside `hangman_lock`
variable (own : L)

def hangmanWait (n : ℕ) (a : A) (l : L) (s : State A L) : Except (Stop A L) (State A L) :=
  if l = own then .ok s
  else if s.waiting a ≠ none then .error .alreadyWaiting
  else match hangmanCheck n l a s with
    | .error e => .error e
    | .ok () => .ok { s with waiting := update s.waiting a (some l) }

def hangmanAcquire (a : A) (l : L) (s : State A L) : Except (Stop A L) (State A L) :=
  if l = own then .ok s
  else if s.waiting a ≠ some l then .error (.notWaiting l)
  else if s.holding l ≠ none then .error (.stillHeld l a)
  else .ok ⟨update s.waiting a none, update s.holding l (some a)⟩

def hangmanRelease (a : A) (l : L) (s : State A L) : Except (Stop A L) (State A L) :=
  if l = own then .ok s
  else if s.waiting a ≠ none then .error .waitingForSomething
  else if s.holding l ≠ some a then .error .notTheHolder
  else .ok { s with holding := update s.holding l none }

inductive Action (A L : Type) where
  | wait (a : A) (l : L)
  | acquire (a : A) (l : L)
  | release (a : A) (l : L)

def step (n : ℕ) (c : Action A L) (s : State A L) : Except (Stop A L) (State A L) :=
  match c with
  | .wait a l => hangmanWait own n a l s
  | .acquire a l => hangmanAcquire own a l s
  | .release a l => hangmanRelease own a l s

abbrev run (n : ℕ) : List (Action A L) → State A L → Except (Stop A L) (State A L) :=
  Runs.run (step own n)

end Calls

/-- The waits-for graph: from an actor to what it waits for, from a lockable to
the actor that holds it. -/
def graph (s : State A L) : A ⊕ L → Option (A ⊕ L)
  | .inl a => (s.waiting a).map .inr
  | .inr l => (s.holding l).map .inl

theorem graph_wait [DecidableEq A] [DecidableEq L] (s : State A L) (a : A) (o : Option L) :
    graph { s with waiting := update s.waiting a o } = update (graph s) (.inl a) (o.map .inr) := by
  funext x
  cases x with
  | inl b =>
    by_cases hb : b = a
    · simp [graph, hb]
    · simp [graph, update_of_ne hb]
  | inr l => simp [graph]

theorem graph_hold [DecidableEq A] [DecidableEq L] (s : State A L) (l : L) (o : Option A) :
    graph { s with holding := update s.holding l o } = update (graph s) (.inr l) (o.map .inl) := by
  funext x
  cases x with
  | inl b => simp [graph]
  | inr k =>
    by_cases hk : k = l
    · simp [graph, hk]
    · simp [graph, update_of_ne hk]

variable {s s' : State A L} {own : L} {n : ℕ}

/-- One round of the loop is two edges of the graph. -/
theorem round_links {cur b : A} {l : L} (hl : s.waiting cur = some l) (hb : s.holding l = some b) :
    ReflTransGen (Link (graph s)) (.inl cur) (.inl b) := by
  have h1 : Link (graph s) (.inl cur) (.inr l) := by simp [Link, graph, hl]
  have h2 : Link (graph s) (.inr l) (.inl b) := by simp [Link, graph, hb]
  exact (ReflTransGen.single h1).tail h2

section Search

variable [DecidableEq A]

theorem checkLoop_found {target cur : A} (h : checkLoop s target n (some cur) = .found) :
    ReflTransGen (Link (graph s)) (.inl cur) (.inl target) := by
  induction n generalizing cur with
  | zero => cases h
  | succ n ih =>
    simp only [checkLoop] at h
    split at h
    · next heq =>
      rw [heq]
    · split at h
      · cases h
      · next l hl =>
        cases hb : s.holding l with
        | none =>
          rw [hb] at h
          cases n <;> cases h
        | some b =>
          rw [hb] at h
          exact (round_links hl hb).trans (ih h)

theorem checkLoop_absent {target : A} {o : Option A} (h : checkLoop s target n o = .absent) :
    ∀ cur, o = some cur → ¬ReflTransGen (Link (graph s)) (.inl cur) (.inl target) := by
  induction n generalizing o with
  | zero =>
    rintro cur rfl
    cases h
  | succ n ih =>
    rintro cur rfl hreach
    simp only [checkLoop] at h
    split at h
    · cases h
    · next hne =>
      rcases ReflTransGen.cases_head hreach with heq | ⟨x, hx, hrest⟩
      · exact hne (Sum.inl.inj heq)
      · split at h
        · next hl => simp [Link, graph, hl] at hx
        · next l hl =>
          have hxl : x = .inr l := by simpa [Link, graph, hl, eq_comm] using hx
          rw [hxl] at hrest
          rcases ReflTransGen.cases_head hrest with heq | ⟨y, hy, hrest'⟩
          · cases heq
          · cases hb : s.holding l with
            | none => simp [Link, graph, hb] at hy
            | some b =>
              have hyb : y = .inl b := by simpa [Link, graph, hb, eq_comm] using hy
              rw [hyb] at hrest'
              exact ih h b hb hrest'

/-- Without a cycle the loop meets no actor twice. -/
theorem checkLoop_ends [Fintype A] (h : Acyclic (graph s)) {target : A} {o : Option A}
    (visited : Finset A)
    (hv : ∀ v ∈ visited, ∀ cur, o = some cur → TransGen (Link (graph s)) (.inl v) (.inl cur))
    (hn : Fintype.card A < n + visited.card) : checkLoop s target n o ≠ .looping := by
  induction n generalizing o visited with
  | zero =>
    have := Finset.card_le_univ visited
    omega
  | succ n ih =>
    cases o with
    | none => simp [checkLoop]
    | some cur =>
      have hfresh : cur ∉ visited := fun hmem => h _ (hv cur hmem cur rfl)
      simp only [checkLoop]
      split
      · simp
      · split
        · simp
        · next l hl =>
          refine ih (insert cur visited) ?_ (by rw [Finset.card_insert_of_notMem hfresh]; omega)
          intro v hvin b hb
          have hround : TransGen (Link (graph s)) (.inl cur) (.inl b) :=
            TransGen.head' (show Link (graph s) (.inl cur) (.inr l) by simp [Link, graph, hl])
              (ReflTransGen.single (show Link (graph s) (.inr l) (.inl b) by simp [Link, graph, hb]))
          rcases Finset.mem_insert.mp hvin with rfl | hold
          · exact hround
          · exact (hv v hold cur rfl).trans hround

/-- Every actor that is printed does wait for something. -/
theorem printLoop_waits {target : A} {o : Option A} (h : checkLoop s target n o = .found) :
    ∀ p ∈ printLoop s target n o, ∃ l, p.2 = some l := by
  induction n generalizing o with
  | zero => cases o <;> cases h
  | succ n ih =>
    cases o with
    | none => cases h
    | some cur =>
      simp only [checkLoop] at h
      simp only [printLoop]
      split at h
      · next heq => simp [heq]
      · next hne =>
        split at h
        · cases h
        · next l hl =>
          rw [if_neg hne, hl]
          intro p hp
          rcases List.mem_cons.mp hp with rfl | hrest
          · exact ⟨l, rfl⟩
          · exact ih h p hrest

theorem check_ok {start : L} {target : A} (h : hangmanCheck n start target s = .ok ()) :
    ¬ReflTransGen (Link (graph s)) (.inr start) (.inl target) := by
  unfold hangmanCheck at h
  split at h
  · cases h
  · next hs =>
    intro hreach
    rcases ReflTransGen.cases_head hreach with heq | ⟨x, hx, hrest⟩
    · cases heq
    · cases hb : s.holding start with
      | none => simp [Link, graph, hb] at hx
      | some b =>
        have hxb : x = .inl b := by simpa [Link, graph, hb, eq_comm] using hx
        rw [hxb] at hrest
        exact checkLoop_absent hs b hb hrest
  · cases h

theorem check_deadlock {start : L} {target a : A} {l : L} {trail : List (A × Option L)}
    (h : hangmanCheck n start target s = .error (.deadlock a l trail)) :
    a = target ∧ l = start ∧ ReflTransGen (Link (graph s)) (.inr start) (.inl target) ∧
      ∀ p ∈ trail, ∃ k, p.2 = some k := by
  unfold hangmanCheck at h
  split at h
  · next hs =>
    cases h
    refine ⟨rfl, rfl, ?_, printLoop_waits hs⟩
    cases hb : s.holding start with
    | none =>
      rw [hb] at hs
      cases n <;> cases hs
    | some b =>
      rw [hb] at hs
      exact ReflTransGen.head (by simp [Link, graph, hb]) (checkLoop_found hs)
  · cases h
  · cases h

theorem check_error {start : L} {target : A} {e : Stop A L}
    (h : hangmanCheck n start target s = .error e) :
    e = .looping ∨ ∃ trail, e = .deadlock target start trail := by
  unfold hangmanCheck at h
  split at h
  · cases h
    exact .inr ⟨_, rfl⟩
  · cases h
  · cases h
    exact .inl rfl

theorem check_ends [Fintype A] (h : Acyclic (graph s)) (hn : Fintype.card A < n) {start : L} {target : A} :
    hangmanCheck n start target s ≠ .error .looping := by
  unfold hangmanCheck
  have hends : checkLoop s target n (s.holding start) ≠ .looping :=
    checkLoop_ends h ∅ (by simp) (by simpa using hn)
  split
  · simp
  · simp
  · next hl => exact absurd hl hends

end Search

structure Tracked (own : L) (s : State A L) : Prop where
  acyclic : Acyclic (graph s)
  own : s.holding own = none

theorem initial_tracked : Tracked own (initial : State A L) := by
  refine ⟨?_, rfl⟩
  have hnone : graph (initial : State A L) = fun _ => none := by
    funext x
    cases x <;> rfl
  rw [hnone]
  exact acyclic_none

section Runs

variable [DecidableEq A] [DecidableEq L]

theorem wait_acyclic (h : Acyclic (graph s)) {a : A} {l : L} (ha : s.waiting a = none) :
    Acyclic (graph { s with waiting := update s.waiting a (some l) }) ↔
      ¬ReflTransGen (Link (graph s)) (.inr l) (.inl a) := by
  rw [graph_wait]
  exact acyclic_update_iff h (by simp [graph, ha])

theorem wait_tracked {a : A} {l : L} (h : Tracked own s) (hs : hangmanWait own n a l s = .ok s') :
    Tracked own s' := by
  unfold hangmanWait at hs
  split at hs
  · cases hs
    exact h
  · split at hs
    · cases hs
    · next hw =>
      split at hs
      · cases hs
      · next hc =>
        cases hs
        exact ⟨(wait_acyclic h.acyclic (not_not.mp hw)).mpr (check_ok hc), h.own⟩

/-- The new holder waits for nothing, so its edge leads nowhere, whoever else
waits for the lockable. -/
theorem acquire_tracked {a : A} {l : L} (h : Tracked own s) (hs : hangmanAcquire own a l s = .ok s') :
    Tracked own s' := by
  unfold hangmanAcquire at hs
  split at hs
  · cases hs
    exact h
  · next hown =>
    split at hs
    · cases hs
    · split at hs
      · cases hs
      · next hfree =>
        cases hs
        have hfree : s.holding l = none := not_not.mp hfree
        have hout : Acyclic (graph { s with waiting := update s.waiting a none }) := by
          rw [graph_wait]
          exact acyclic_erase h.acyclic _
        refine ⟨?_, ?_⟩
        · show Acyclic (graph { ({ s with waiting := update s.waiting a none } : State A L) with
            holding := update s.holding l (some a) })
          rw [graph_hold { s with waiting := update s.waiting a none }]
          refine (acyclic_update_iff hout (by simp [graph, hfree])).mpr ?_
          intro hreach
          rcases ReflTransGen.cases_head hreach with heq | ⟨x, hx, -⟩
          · cases heq
          · simp [Link, graph] at hx
        · show update s.holding l (some a) own = none
          rw [update_of_ne (Ne.symm hown), h.own]

theorem release_tracked {a : A} {l : L} (h : Tracked own s) (hs : hangmanRelease own a l s = .ok s') :
    Tracked own s' := by
  unfold hangmanRelease at hs
  split at hs
  · cases hs
    exact h
  · next hown =>
    split at hs
    · cases hs
    · split at hs
      · cases hs
      · cases hs
        refine ⟨?_, ?_⟩
        · rw [graph_hold]
          exact acyclic_erase h.acyclic _
        · show update s.holding l none own = none
          rw [update_of_ne (Ne.symm hown), h.own]

theorem step_tracked {c : Action A L} (h : Tracked own s) (hs : step own n c s = .ok s') :
    Tracked own s' := by
  cases c with
  | wait a l => exact wait_tracked h hs
  | acquire a l => exact acquire_tracked h hs
  | release a l => exact release_tracked h hs

variable [Fintype A]

/-- What the detector is for, in one state. -/
structure Detects (own : L) (s : State A L) : Prop where
  acyclic : Acyclic (graph s)
  ends : ∀ n start target, Fintype.card A < n → checkLoop s target n (s.holding start) ≠ .looping
  reports : ∀ n a l, Fintype.card A < n → s.waiting a = none →
    ((∃ trail, hangmanWait own n a l s = .error (.deadlock a l trail)) ↔
      ¬Acyclic (graph { s with waiting := update s.waiting a (some l) }))
  silent : ∀ n a l, Fintype.card A < n → s.waiting a = none →
    Acyclic (graph { s with waiting := update s.waiting a (some l) }) →
    ∃ s', hangmanWait own n a l s = .ok s'
  busy : ∀ n a l, l ≠ own → s.waiting a ≠ none → hangmanWait own n a l s = .error .alreadyWaiting
  acquires : ∀ a l s', hangmanAcquire own a l s = .ok s' → Acyclic (graph s')
  printed : ∀ n a l b k trail, hangmanWait own n a l s = .error (.deadlock b k trail) →
    b = a ∧ k = l ∧ ∀ p ∈ trail, ∃ m, p.2 = some m

theorem tracked_reports (h : Tracked own s) (hn : Fintype.card A < n) {a : A} {l : L}
    (ha : s.waiting a = none) : (∃ trail, hangmanWait own n a l s = .error (.deadlock a l trail)) ↔
      ¬Acyclic (graph { s with waiting := update s.waiting a (some l) }) := by
  rw [wait_acyclic h.acyclic ha, not_not]
  by_cases hl : l = own
  · -- no one ever holds the lockable of `hangman_lock` itself
    have hno : ¬ReflTransGen (Link (graph s)) (.inr l) (.inl a) := by
      intro hreach
      rcases ReflTransGen.cases_head hreach with heq | ⟨x, hx, -⟩
      · cases heq
      · simp [Link, graph, hl, h.own] at hx
    simp [hangmanWait, hl, hl ▸ hno]
  · cases hc : hangmanCheck n l a s with
    | ok u =>
      have := check_ok hc
      simp [hangmanWait, hl, ha, hc, this]
    | error e =>
      rcases check_error hc with rfl | ⟨trail, rfl⟩
      · exact absurd hc (check_ends h.acyclic hn)
      · simp [hangmanWait, hl, ha, hc, (check_deadlock hc).2.2.1]

theorem tracked_detects (h : Tracked own s) : Detects own s := by
  refine ⟨h.acyclic, ?_, ?_, ?_, ?_, ?_, ?_⟩
  · intro n start target hn
    exact checkLoop_ends h.acyclic ∅ (by simp) (by simpa using hn)
  · intro n a l hn ha
    exact tracked_reports h hn ha
  · intro n a l hn ha hacyc
    by_cases hl : l = own
    · exact ⟨s, by simp [hangmanWait, hl]⟩
    · have hquiet : ∀ trail, hangmanWait own n a l s ≠ .error (.deadlock a l trail) :=
        fun trail ht => (tracked_reports h hn ha).mp ⟨trail, ht⟩ hacyc
      cases hc : hangmanCheck n l a s with
      | ok u => exact ⟨_, by simp [hangmanWait, hl, ha, hc]; rfl⟩
      | error e =>
        rcases check_error hc with rfl | ⟨trail, rfl⟩
        · exact absurd hc (check_ends h.acyclic hn)
        · exact absurd (by simp [hangmanWait, hl, ha, hc]) (hquiet trail)
  · intro n a l hl ha
    simp [hangmanWait, hl, ha]
  · intro a l s' hs
    exact (acquire_tracked h hs).acyclic
  · intro n a l b k trail hw
    unfold hangmanWait at hw
    split at hw
    · cases hw
    · split at hw
      · cases hw
      · split at hw
        · next e hc =>
          cases hw
          obtain ⟨hb, hk, -, hp⟩ := check_deadlock hc
          exact ⟨hb, hk, hp⟩
        · cases hw

/-- Any calls by any finite set of actors, as long as none has stopped: there is
no cycle, the search ends, and a call is refused as a deadlock exactly if its
edge would close a cycle. -/
theorem run_detects (own : L) (n : ℕ) (as : List (Action A L)) (s : State A L)
    (hr : run own n as initial = .ok s) : Detects own s :=
  tracked_detects (Runs.run_invariant (fun _ _ _ h hs => step_tracked h hs) initial_tracked hr)

end Runs

/-- Actor 1 waits for what actor 0 holds, and gets it after a release while
actor 2 waits for it too; then each of the two holds what the other needs. -/
def crossed : List (Action (Fin 3) (Fin 3)) :=
  [.wait 0 0, .acquire 0 0, .wait 1 0, .wait 2 0, .release 0 0, .acquire 1 0, .wait 0 1, .acquire 0 1,
    .wait 0 0]

theorem crossed_detects : ∃ s, run 2 4 crossed initial = .ok s ∧ s.waiting 1 = none ∧
    (∃ trail, hangmanWait 2 4 1 1 s = .error (.deadlock 1 1 trail)) ∧ Detects 2 s := by
  obtain ⟨s, hr, hw, hcheck⟩ : ∃ s, run 2 4 crossed initial = .ok s ∧ s.waiting 1 = none ∧
      checkLoop s 1 4 (s.holding 1) = .found := by decide +kernel
  refine ⟨s, hr, hw, ⟨printLoop s 1 4 (s.holding 1), ?_⟩, run_detects 2 4 crossed s hr⟩
  simp [hangmanWait, hangmanCheck, hw, hcheck]

end OS161.Hangman
