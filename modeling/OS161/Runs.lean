import Mathlib.Algebra.Group.Int.Defs
import Mathlib.Algebra.GroupWithZero.Nat
import Mathlib.Logic.Basic

/-!
# Runs of a step function

A machine is a step function labelled by actions. A step either yields the
next state or stops with a reason, so that a run is a finite list of actions
all of whose steps succeed. Guards restrict a run by a condition on each
action and on the state that action is taken from; nothing is assumed about
the states a step leads to.
-/

set_option autoImplicit false

namespace OS161.Runs

variable {α σ ε γ : Type*}

def run (step : α → σ → Except ε σ) : List α → σ → Except ε σ
  | [], s => .ok s
  | a::as, s => match step a s with
    | .ok s' => run step as s'
    | .error e => .error e

def Guarded (step : α → σ → Except ε σ) (guard : α → σ → Prop) : List α → σ → Prop
  | [], _ => True
  | a::as, s => guard a s ∧ ∀ s', step a s = .ok s' → Guarded step guard as s'

/-- A record kept beside a run, from each action and the state it is taken from. -/
def track (step : α → σ → Except ε σ) (note : α → σ → γ → γ) : List α → σ → γ → γ
  | [], _, g => g
  | a::as, s, g => match step a s with
    | .ok s' => track step note as s' (note a s g)
    | .error _ => g

variable {step : α → σ → Except ε σ}

instance decidableReaches {x : Except ε σ} {P : σ → Prop} [DecidablePred P] :
    Decidable (∃ t, x = .ok t ∧ P t) :=
  match x with
  | .ok t => decidable_of_iff (P t) ⟨fun h => ⟨t, rfl, h⟩, fun ⟨_, he, h⟩ => Except.ok.inj he ▸ h⟩
  | .error _ => isFalse (fun ⟨_, he, _⟩ => nomatch he)

instance decidableStops {x : Except ε σ} {e : ε} [DecidableEq ε] : Decidable (x = .error e) :=
  match x with
  | .ok _ => isFalse (fun h => nomatch h)
  | .error d => decidable_of_iff (d = e) ⟨fun h => h ▸ rfl, fun h => Except.error.inj h⟩

instance decidableGuarded {guard : α → σ → Prop} [∀ a s, Decidable (guard a s)] :
    ∀ as s, Decidable (Guarded step guard as s)
  | [], _ => isTrue trivial
  | a::as, s =>
    have : ∀ u, Decidable (Guarded step guard as u) := decidableGuarded as
    match hs : step a s with
    | .ok s' => decidable_of_iff (guard a s ∧ Guarded step guard as s')
        ⟨fun h => ⟨h.1, fun _ hu => Except.ok.inj (hs.symm.trans hu) ▸ h.2⟩, fun h => ⟨h.1, h.2 s' hs⟩⟩
    | .error _ => decidable_of_iff (guard a s)
        ⟨fun h => ⟨h, fun _ hu => nomatch hs.symm.trans hu⟩, fun h => h.1⟩

/-- The numerals that name the parties of small machines. -/
instance neZeroOne : NeZero 1 := ⟨by decide⟩

instance neZeroTwo : NeZero 2 := ⟨by decide⟩

instance neZeroThree : NeZero 3 := ⟨by decide⟩

theorem run_cons_ok {a : α} {as : List α} {s t : σ} :
    run step (a::as) s = .ok t ↔ ∃ s', step a s = .ok s' ∧ run step as s' = .ok t := by
  constructor
  · intro h
    cases hs : step a s with
    | error e => simp [run, hs] at h
    | ok s' => exact ⟨s', rfl, by simpa [run, hs] using h⟩
  · rintro ⟨s', hs, h⟩
    simpa [run, hs] using h

theorem run_append (as bs : List α) (s : σ) : run step (as ++ bs) s =
    match run step as s with
    | .ok t => run step bs t
    | .error e => .error e := by
  induction as generalizing s with
  | nil => rfl
  | cons a as ih =>
    cases hs : step a s with
    | error e => simp [run, hs]
    | ok s' =>
      simp only [List.cons_append, run, hs]
      exact ih s'

theorem guarded_append {guard : α → σ → Prop} {as bs : List α} {s : σ} :
    Guarded step guard (as ++ bs) s ↔
      Guarded step guard as s ∧ ∀ t, run step as s = .ok t → Guarded step guard bs t := by
  induction as generalizing s with
  | nil => simp [Guarded, run]
  | cons a as ih =>
    cases hs : step a s with
    | error e => simp [Guarded, run, hs]
    | ok s' => simp [Guarded, run, hs, ih, and_assoc]

/-- What one guarded step preserves, a guarded run of any length preserves. -/
theorem guarded_invariant {guard : α → σ → Prop} {inv : σ → Prop}
    (hstep : ∀ a s s', inv s → guard a s → step a s = .ok s' → inv s')
    {as : List α} {s t : σ} (hg : Guarded step guard as s) (hi : inv s)
    (hr : run step as s = .ok t) : inv t := by
  induction as generalizing s with
  | nil =>
    cases hr
    exact hi
  | cons a as ih =>
    obtain ⟨s', hs, hrest⟩ := run_cons_ok.mp hr
    exact ih (hg.2 s' hs) (hstep a s s' hi hg.1 hs) hrest

theorem track_invariant {note : α → σ → γ → γ} {inv : σ → γ → Prop}
    (hstep : ∀ a s s' g, inv s g → step a s = .ok s' → inv s' (note a s g))
    {as : List α} {s t : σ} {g : γ} (hi : inv s g) (hr : run step as s = .ok t) :
    inv t (track step note as s g) := by
  induction as generalizing s g with
  | nil =>
    cases hr
    exact hi
  | cons a as ih =>
    obtain ⟨s', hs, hrest⟩ := run_cons_ok.mp hr
    simp only [track, hs]
    exact ih (hstep a s s' g hi hs) hrest

theorem run_invariant {inv : σ → Prop}
    (hstep : ∀ a s s', inv s → step a s = .ok s' → inv s')
    {as : List α} {s t : σ} (hi : inv s) (hr : run step as s = .ok t) : inv t := by
  induction as generalizing s with
  | nil =>
    cases hr
    exact hi
  | cons a as ih =>
    obtain ⟨s', hs, hrest⟩ := run_cons_ok.mp hr
    exact ih (hstep a s s' hi hs) hrest

/-- If a step keeps an invariant exactly where the guard allows it, the
invariant holds in every state along a run exactly if the run is guarded. -/
theorem guarded_iff_prefixes {guard : α → σ → Prop} {inv : σ → Prop}
    (hstep : ∀ a s s', inv s → step a s = .ok s' → (guard a s ↔ inv s'))
    (hstop : ∀ a s e, inv s → step a s = .error e → guard a s) {as : List α} {s : σ} (hi : inv s) :
    Guarded step guard as s ↔ ∀ bs, bs <+: as → ∀ t, run step bs s = .ok t → inv t := by
  induction as generalizing s with
  | nil =>
    constructor
    · intro _ bs hbs t ht
      rw [List.prefix_nil.mp hbs] at ht
      cases ht
      exact hi
    · intro _
      trivial
  | cons a as ih =>
    cases hs : step a s with
    | error e =>
      simp only [Guarded, hs, hstop a s e hi hs, reduceCtorEq, false_implies, implies_true, and_self, true_iff]
      intro bs hbs t ht
      cases bs with
      | nil =>
        cases ht
        exact hi
      | cons b bs =>
        rw [List.cons_prefix_cons] at hbs
        simp [run, hbs.1, hs] at ht
    | ok s' =>
      have hs' : Guarded step guard (a::as) s ↔ guard a s ∧ Guarded step guard as s' := by
        simp [Guarded, hs]
      rw [hs', hstep a s s' hi hs]
      constructor
      · rintro ⟨ha, hg⟩ bs hbs t ht
        cases bs with
        | nil =>
          cases ht
          exact hi
        | cons b bs =>
          obtain ⟨rfl, hrest⟩ := List.cons_prefix_cons.mp hbs
          rw [run, hs] at ht
          exact (ih ha).mp hg bs hrest t ht
      · intro hall
        have ha : inv s' := hall [a] (by simp) s' (by simp [run, hs])
        refine ⟨ha, (ih ha).mpr ?_⟩
        intro bs hbs t ht
        exact hall (a::bs) (by simpa using hbs) t (by simpa [run, hs] using ht)

/-- What succeeds leads to `P`, and what fails does so for a reason in `r`. -/
def Ensures (r : ε → Prop) (P : σ → Prop) : Except ε σ → Prop
  | .ok s => P s
  | .error e => r e

theorem run_ensures {r : ε → Prop} {inv : σ → Prop} (hstep : ∀ a s, inv s → Ensures r inv (step a s))
    {as : List α} {s : σ} (hi : inv s) : Ensures r inv (run step as s) := by
  induction as generalizing s with
  | nil => exact hi
  | cons a as ih =>
    have ha := hstep a s hi
    cases hs : step a s with
    | error e => simpa [run, hs, Ensures] using ha
    | ok s' =>
      simp only [run, hs]
      exact ih (by simpa [hs, Ensures] using ha)

/-- Where guarded steps keep an invariant or stop for a reason in `r`, guarded runs do. -/
theorem guarded_ensures {guard : α → σ → Prop} {r : ε → Prop} {inv : σ → Prop}
    (hstep : ∀ a s, inv s → guard a s → Ensures r inv (step a s)) {as : List α} {s : σ}
    (hg : Guarded step guard as s) (hi : inv s) : Ensures r inv (run step as s) := by
  induction as generalizing s with
  | nil => exact hi
  | cons a as ih =>
    have ha := hstep a s hi hg.1
    cases hs : step a s with
    | error e => simpa [run, hs, Ensures] using ha
    | ok s' =>
      simp only [run, hs]
      exact ih (hg.2 s' hs) (by simpa [hs, Ensures] using ha)

theorem ensures_ok {P : σ → Prop} {x : Except ε σ} : Ensures (fun _ => False) P x ↔ ∃ s, x = .ok s ∧ P s := by
  cases x with
  | error e => simp [Ensures]
  | ok s => simp [Ensures]

/-- Steps that the guard allows succeed and keep an invariant, and any other
step spoils what the invariant is for: a run never stops and is good all along
exactly if it is guarded. -/
theorem guarded_iff_good {proper guard : α → σ → Prop} {inv good : σ → Prop}
    (hstep : ∀ a s, inv s → proper a s → guard a s → ∃ s', step a s = .ok s' ∧ inv s')
    (hbad : ∀ a s s', inv s → proper a s → ¬guard a s → step a s = .ok s' → ¬good s')
    (hgood : ∀ s, inv s → good s) {as : List α} {s : σ} (hp : Guarded step proper as s) (hi : inv s) :
    Guarded step guard as s ↔ ∀ bs, bs <+: as → ∃ t, run step bs s = .ok t ∧ good t := by
  induction as generalizing s with
  | nil =>
    refine iff_of_true trivial ?_
    intro bs hbs
    rw [List.prefix_nil.mp hbs]
    exact ⟨s, rfl, hgood s hi⟩
  | cons a as ih =>
    by_cases ha : guard a s
    · obtain ⟨s', hs, hi'⟩ := hstep a s hi hp.1 ha
      have hrest := ih (hp.2 s' hs) hi'
      constructor
      · intro hg bs hbs
        cases bs with
        | nil => exact ⟨s, rfl, hgood s hi⟩
        | cons b bs =>
          obtain ⟨rfl, htail⟩ := List.cons_prefix_cons.mp hbs
          obtain ⟨t, ht, hgt⟩ := hrest.mp (hg.2 s' hs) bs htail
          exact ⟨t, by simpa [run, hs] using ht, hgt⟩
      · intro hall
        refine ⟨ha, ?_⟩
        intro u hu
        rw [hs] at hu
        cases hu
        apply hrest.mpr
        intro bs hbs
        obtain ⟨t, ht, hgt⟩ := hall (a::bs) (by simpa using hbs)
        exact ⟨t, by simpa [run, hs] using ht, hgt⟩
    · apply iff_of_false (fun hg => ha hg.1)
      intro hall
      obtain ⟨t, ht, hgt⟩ := hall [a] (by simp)
      cases hs : step a s with
      | error e => simp [run, hs] at ht
      | ok s' =>
        simp only [run, hs, Except.ok.injEq] at ht
        rw [ht] at hs
        exact hbad a s t hi hp.1 ha hs hgt

/-- If a step stops with `e` exactly where the guard forbids it, so does a run. -/
theorem guarded_iff {guard : α → σ → Prop} {inv : σ → Prop} {e : ε}
    (hstep : ∀ a s s', inv s → step a s = .ok s' → inv s')
    (hexact : ∀ a s, inv s → (guard a s ↔ step a s ≠ .error e)) {as : List α} {s : σ} (hi : inv s) :
    Guarded step guard as s ↔ run step as s ≠ .error e := by
  induction as generalizing s with
  | nil => simp [Guarded, run]
  | cons a as ih =>
    rw [Guarded, hexact a s hi]
    cases hs : step a s with
    | error d => simp [run, hs]
    | ok s' => simp [run, hs, ih (hstep a s s' hi hs)]

end OS161.Runs
