import Mathlib.Data.Nat.Notation
import OS161.Runs

/-!
# Actions that may abort

An action returns a value and leaves a new state, or it aborts for a reason.
What an action does that is put together from others follows from what these
do: there is one rule for each way to put actions together, and a loop over a
list keeps whatever its body keeps.
-/

set_option autoImplicit false

namespace OS161.Aborts

open Runs

abbrev Action (ε σ : Type) := StateT σ (Except ε)

variable {ε σ α β : Type} {r r' : ε → Prop} {c : Action ε σ α} {f : α → Action ε σ β} {s : σ}
  {P Q : α → σ → Prop}

/-- From `s`, the action returns as `Q` says, unless it aborts for a reason in `r`. -/
def Ends (r : ε → Prop) (c : Action ε σ α) (s : σ) (Q : α → σ → Prop) : Prop :=
  Ensures r (fun p => Q p.1 p.2) (c s)

/-- What does not hold aborts the action. -/
def require (p : Prop) [Decidable p] (e : ε) : Action ε σ Unit := if p then pure () else throw e

/-- What is only done under a condition. -/
def onlyIf (p : Prop) [Decidable p] (c : Action ε σ Unit) : Action ε σ Unit := if p then c else pure ()

theorem Ends.mono (h : Ends r c s P) (hr : ∀ e, r e → r' e) (hPQ : ∀ a s', P a s' → Q a s') : Ends r' c s Q := by
  unfold Ends at *
  cases hc : c s with
  | error e =>
    rw [hc] at h
    exact hr e h
  | ok p =>
    rw [hc] at h
    exact hPQ p.1 p.2 h

theorem Ends.imp (h : Ends r c s P) (hPQ : ∀ a s', P a s' → Q a s') : Ends r c s Q := h.mono (fun _ => id) hPQ

theorem Ends.and (h : Ends r c s P) (h' : Ends r c s Q) : Ends r c s (fun a s' => P a s' ∧ Q a s') := by
  unfold Ends at *
  cases hc : c s with
  | error e =>
    rw [hc] at h
    exact h
  | ok p =>
    rw [hc] at h h'
    exact ⟨h, h'⟩

/-- Nothing is said of how an action ends. -/
theorem ends_anyhow (c : Action ε σ α) (s : σ) : Ends (fun _ => True) c s (fun _ _ => True) := by
  unfold Ends
  cases c s with
  | error e => trivial
  | ok p => trivial

theorem Ends.ok (h : Ends r c s Q) {a : α} {s' : σ} (hc : c s = .ok (a, s')) : Q a s' := by
  rw [Ends, hc] at h
  exact h

theorem Ends.error (h : Ends r c s Q) {e : ε} (hc : c s = .error e) : r e := by
  rw [Ends, hc] at h
  exact h

/-- An action that has no reason to abort returns. -/
theorem Ends.returns (h : Ends (fun _ => False) c s Q) : ∃ a s', c s = .ok (a, s') ∧ Q a s' := by
  obtain ⟨⟨a, s'⟩, hc, hQ⟩ := ensures_ok.mp h
  exact ⟨a, s', hc, hQ⟩

@[simp] theorem ends_pure {a : α} : Ends r (pure a) s Q ↔ Q a s := Iff.rfl

@[simp] theorem ends_throw {e : ε} : Ends r (throw e : Action ε σ α) s Q ↔ r e := Iff.rfl

@[simp] theorem ends_get {Q : σ → σ → Prop} : Ends r (get : Action ε σ σ) s Q ↔ Q s s := Iff.rfl

@[simp] theorem ends_modify {g : σ → σ} {Q : Unit → σ → Prop} :
    Ends r (modify g : Action ε σ Unit) s Q ↔ Q () (g s) := Iff.rfl

@[simp] theorem ends_bind {Q : β → σ → Prop} :
    Ends r (c >>= f) s Q ↔ Ends r c s (fun a s' => Ends r (f a) s' Q) := by
  simp only [Ends, bind, StateT.bind]
  cases c s with
  | error e => exact Iff.rfl
  | ok p => exact Iff.rfl

@[simp] theorem ends_map {g : α → β} {Q : β → σ → Prop} :
    Ends r (g <$> c) s Q ↔ Ends r c s (fun a s' => Q (g a) s') := by
  rw [map_eq_pure_bind, ends_bind]
  rfl

@[simp] theorem ends_require {p : Prop} [Decidable p] {e : ε} {Q : Unit → σ → Prop} :
    Ends r (require p e) s Q ↔ (p → Q () s) ∧ (¬p → r e) := by
  unfold require
  split <;> simp [*]

@[simp] theorem ends_ite {p : Prop} [Decidable p] {c' : Action ε σ α} :
    Ends r (if p then c else c') s Q ↔ (p → Ends r c s Q) ∧ (¬p → Ends r c' s Q) := by
  split <;> simp [*]

@[simp] theorem ends_onlyIf {p : Prop} [Decidable p] {c : Action ε σ Unit} {Q : Unit → σ → Prop} :
    Ends r (onlyIf p c) s Q ↔ (p → Ends r c s Q) ∧ (¬p → Q () s) := by
  unfold onlyIf
  split <;> simp [*]

/-- A loop over a list: `I` says what holds after the part of the list that is done. -/
theorem ends_foldlM {g : β → α → Action ε σ β} {I : List α → β → σ → Prop} {xs : List α}
    (hstep : ∀ done x rest, xs = done ++ x::rest → ∀ b s, I done b s →
      Ends r (g b x) s (I (done ++ [x])))
    {b : β} (hi : I [] b s) : Ends r (xs.foldlM g b) s (I xs) := by
  suffices h : ∀ rest done b s, xs = done ++ rest → I done b s → Ends r (rest.foldlM g b) s (I xs) from
    h xs [] b s rfl hi
  intro rest
  induction rest with
  | nil =>
    intro done b s hxs hi
    rw [List.append_nil] at hxs
    rw [hxs]
    exact hi
  | cons x rest ih =>
    intro done b s hxs hi
    rw [List.foldlM_cons, ends_bind]
    apply (hstep done x rest hxs b s hi).imp
    intro b' s' hi'
    exact ih (done ++ [x]) b' s' (by simpa using hxs) hi'

/-- A loop that counts. -/
theorem ends_rangeM {g : β → ℕ → Action ε σ β} {I : ℕ → β → σ → Prop} {n : ℕ}
    (hstep : ∀ i < n, ∀ b s, I i b s → Ends r (g b i) s (I (i+1))) {b : β} (hi : I 0 b s) :
    Ends r ((List.range n).foldlM g b) s (I n) := by
  induction n with
  | zero => exact hi
  | succ n ih =>
    rw [List.range_succ, List.foldlM_append, ends_bind]
    apply (ih fun i hin => hstep i (by omega)).imp
    intro b' s' hi'
    simpa using hstep n (by omega) b' s' hi'

-- a proof goes by the rules and does not run the action
attribute [irreducible] Ends

end OS161.Aborts
