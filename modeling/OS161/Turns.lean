import Mathlib.Data.List.Basic
import Mathlib.Logic.Function.Basic

/-!
# Turns on a stream

Parties put items on one stream, or take them from it, and each does so only while it
has a lock. Then the stream is made of whole turns, one after the other, and of what the
party that has the lock has done so far.
-/

set_option autoImplicit false

namespace OS161.Turns

open Function

variable {T α : Type*}

/-- The items of a turn, each with its party. -/
def items (turn : T × List α) : List (T × α) := turn.2.map fun x => (turn.1, x)

/-- What a party that has the lock has done in its turn; nothing if there is none. -/
def current (part : T → Option (List α)) : Option T → List (T × α)
  | none => []
  | some t => items (t, (part t).getD [])

/-- `part` is what each party has done in a turn that is not over. -/
structure InTurns (lock : Option T) (part : T → Option (List α)) (turns : List (T × List α)) (stream : List (T × α)) : Prop where
  holder : ∀ t, (part t).isSome = true ↔ lock = some t
  stream : stream = turns.flatMap items ++ current part lock

variable {lock : Option T} {part : T → Option (List α)} {turns : List (T × List α)} {stream : List (T × α)} {t : T} {xs ys : List α}

theorem InTurns.begin (part : T → Option (List α)) (hnone : ∀ t, part t = none) : InTurns none part [] [] :=
  ⟨fun t => by simp [hnone], rfl⟩

theorem InTurns.locked (h : InTurns lock part turns stream) (ht : part t = some xs) : lock = some t :=
  (h.holder t).mp (by rw [ht]; rfl)

variable [DecidableEq T]

theorem InTurns.acquire (h : InTurns none part turns stream) (t : T) : InTurns (some t) (update part t (some [])) turns stream := by
  refine ⟨fun u => ?_, ?_⟩
  · by_cases hu : u = t
    · simp [hu]
    · rw [update_of_ne hu, h.holder u]
      simp [Ne.symm hu]
  · rw [h.stream]
    simp [current, items]

theorem InTurns.act (h : InTurns lock part turns stream) (ht : part t = some xs) (ys : List α) :
    InTurns lock (update part t (some (xs ++ ys))) turns (stream ++ items (t, ys)) := by
  have hlock := h.locked ht
  refine ⟨fun u => ?_, ?_⟩
  · by_cases hu : u = t
    · simp [hu, hlock]
    · rw [update_of_ne hu]
      exact h.holder u
  · rw [h.stream, hlock]
    simp [current, items, ht]

theorem InTurns.release (h : InTurns lock part turns stream) (ht : part t = some xs) :
    InTurns none (update part t none) (turns ++ [(t, xs)]) stream := by
  have hlock := h.locked ht
  refine ⟨fun u => ?_, ?_⟩
  · by_cases hu : u = t
    · simp [hu]
    · rw [update_of_ne hu, h.holder u, hlock]
      simp [Ne.symm hu]
  · rw [h.stream, hlock]
    simp [current, ht]

/-- A step that is no part of a turn. -/
theorem update_same {β : Type*} {place : T → β} {x : β} (f : β → Option (List α)) (hsame : f x = f (place t)) :
    f ∘ update place t x = f ∘ place := by
  rw [comp_update, hsame, ← comp_apply (f := f) (g := place), update_eq_self]

end OS161.Turns
