import Mathlib.Algebra.Order.BigOperators.Group.List
import OS161.Regions

/-!
# Tilings of a stretch of addresses

A list of tiles, each of a size, laid one after the other from an address on.
Where a tile lies is determined by the sizes of those before it, so that
replacing some tiles by others of the same extent moves no other tile.
-/

set_option autoImplicit false

namespace OS161.Tilings

open Regions

variable {τ : Type*} {size : τ → ℕ}

def extent (size : τ → ℕ) (ts : List τ) : ℕ := (ts.map size).sum

/-- Every tile with the address it starts at. -/
def places (size : τ → ℕ) : ℕ → List τ → List (ℕ × τ)
  | _, [] => []
  | a, t::ts => (a, t) :: places size (a + size t) ts

@[simp] theorem extent_nil : extent size [] = 0 := rfl

@[simp] theorem extent_cons (t : τ) (ts : List τ) : extent size (t::ts) = size t + extent size ts := by
  simp [extent]

@[simp] theorem extent_append (ts us : List τ) : extent size (ts ++ us) = extent size ts + extent size us := by
  simp [extent]

theorem places_append (a : ℕ) (ts us : List τ) :
    places size a (ts ++ us) = places size a ts ++ places size (a + extent size ts) us := by
  induction ts generalizing a with
  | nil => rfl
  | cons t ts ih => simp [places, ih, Nat.add_assoc]

theorem mem_places {a x : ℕ} {t : τ} {ts : List τ} :
    (x, t) ∈ places size a ts ↔ ∃ l r, ts = l ++ t::r ∧ x = a + extent size l := by
  induction ts generalizing a with
  | nil => simp [places]
  | cons u ts ih =>
    simp only [places, List.mem_cons, Prod.mk.injEq]
    constructor
    · rintro (⟨rfl, rfl⟩ | h)
      · exact ⟨[], ts, rfl, rfl⟩
      · obtain ⟨l, r, rfl, rfl⟩ := ih.mp h
        exact ⟨u::l, r, rfl, by simp [Nat.add_assoc]⟩
    · rintro ⟨l, r, hts, rfl⟩
      cases l with
      | nil =>
        cases hts
        exact .inl ⟨rfl, rfl⟩
      | cons v l =>
        cases hts
        exact .inr (ih.mpr ⟨l, r, rfl, by simp [Nat.add_assoc]⟩)

theorem places_within {a x : ℕ} {t : τ} {ts : List τ} (h : (x, t) ∈ places size a ts) :
    a ≤ x ∧ x + size t ≤ a + extent size ts := by
  obtain ⟨l, r, rfl, rfl⟩ := mem_places.mp h
  simp only [extent_append, extent_cons]
  omega

/-- Tiles that start at different addresses do not overlap. -/
theorem apart_of_places {a x y : ℕ} {t u : τ} {ts : List τ} (ht : (x, t) ∈ places size a ts)
    (hu : (y, u) ∈ places size a ts) (hne : x ≠ y) : Apart (x, size t) (y, size u) := by
  induction ts generalizing a with
  | nil => cases ht
  | cons v ts ih =>
    simp only [places, List.mem_cons, Prod.mk.injEq] at ht hu
    obtain ⟨rfl, rfl⟩ | ht := ht
    · obtain ⟨rfl, -⟩ | hu := hu
      · exact absurd rfl hne
      · exact .inl (places_within hu).1
    · obtain ⟨rfl, rfl⟩ | hu := hu
      · exact .inr (places_within ht).1
      · exact ih ht hu

/-- A tile that is not empty has its address to itself. -/
theorem places_unique {a x : ℕ} {t u : τ} {ts : List τ} (hpos : ∀ t ∈ ts, 0 < size t)
    (ht : (x, t) ∈ places size a ts) (hu : (x, u) ∈ places size a ts) : t = u := by
  induction ts generalizing a with
  | nil => cases ht
  | cons v ts ih =>
    have hv := hpos v List.mem_cons_self
    simp only [places, List.mem_cons, Prod.mk.injEq] at ht hu
    obtain ⟨rfl, rfl⟩ | ht := ht
    · obtain ⟨-, rfl⟩ | hu := hu
      · rfl
      · have := (places_within hu).1
        omega
    · obtain ⟨rfl, rfl⟩ | hu := hu
      · have := (places_within ht).1
        omega
      · exact ih (fun t ht => hpos t (List.mem_cons_of_mem v ht)) ht hu

/-- Tiles between others can be replaced where the extent stays the same. -/
theorem places_replace {a x : ℕ} {t : τ} {l m m' r : List τ} (hsame : extent size m' = extent size m)
    (hkept : (x, t) ∈ places size (a + extent size l) m → (x, t) ∈ places size (a + extent size l) m')
    (h : (x, t) ∈ places size a (l ++ (m ++ r))) : (x, t) ∈ places size a (l ++ (m' ++ r)) := by
  simp only [places_append, List.mem_append, hsame] at h ⊢
  obtain h | h | h := h
  · exact .inl h
  · exact .inr (.inl (hkept h))
  · exact .inr (.inr h)

end OS161.Tilings
