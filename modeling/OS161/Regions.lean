import Mathlib.Algebra.GroupWithZero.Nat
import Mathlib.Data.List.Pairwise
import Mathlib.Data.List.Perm.Subperm
import Mathlib.Logic.Function.Basic

/-!
# Stretches of addresses

A stretch is a base and a length. Stretches that lie between two bounds and
are pairwise apart are packed; what lies at the upper bound can be added by
raising it, and nothing is lost by leaving some of them out.
-/

set_option autoImplicit false

namespace OS161.Regions

variable {lo hi top n x : ℕ} {b c : ℕ × ℕ} {l m : List (ℕ × ℕ)}

/-- Two stretches have no address in common. -/
def Apart (b c : ℕ × ℕ) : Prop := b.1 + b.2 ≤ c.1 ∨ c.1 + c.2 ≤ b.1

theorem Apart.symm (h : Apart b c) : Apart c b := Or.symm h

instance apart_symm : Std.Symm Apart := ⟨fun _ _ => Apart.symm⟩

instance decidableApart (b c : ℕ × ℕ) : Decidable (Apart b c) :=
  inferInstanceAs (Decidable (b.1 + b.2 ≤ c.1 ∨ c.1 + c.2 ≤ b.1))

/-- The address is in the stretch. -/
def Inside (b : ℕ × ℕ) (x : ℕ) : Prop := b.1 ≤ x ∧ x < b.1 + b.2

theorem Apart.not_inside (h : Apart b c) (hb : Inside b x) : ¬Inside c x := by
  unfold Apart at h
  unfold Inside at *
  omega

/-- Parts of stretches that are apart are apart. -/
theorem Apart.mono {b' c' : ℕ × ℕ} (h : Apart b c) (hb : b.1 ≤ b'.1 ∧ b'.1 + b'.2 ≤ b.1 + b.2)
    (hc : c.1 ≤ c'.1 ∧ c'.1 + c'.2 ≤ c.1 + c.2) : Apart b' c' := by
  unfold Apart at *
  omega

structure Packed (lo hi : ℕ) (l : List (ℕ × ℕ)) : Prop where
  within : ∀ b ∈ l, lo ≤ b.1 ∧ b.1 + b.2 ≤ hi
  apart : l.Pairwise Apart

theorem packed_nil : Packed lo hi [] := ⟨by simp, List.Pairwise.nil⟩

instance decidablePacked : Decidable (Packed lo hi l) :=
  decidable_of_iff ((∀ b ∈ l, lo ≤ b.1 ∧ b.1 + b.2 ≤ hi) ∧ l.Pairwise Apart)
    ⟨fun h => ⟨h.1, h.2⟩, fun h => ⟨h.within, h.apart⟩⟩

theorem Packed.bump (h : Packed lo hi l) (hlo : lo ≤ hi) (htop : hi + n ≤ top) : Packed lo top ((hi, n)::l) := by
  constructor
  · intro b hb
    obtain rfl | hb := List.mem_cons.mp hb
    · exact ⟨hlo, htop⟩
    · have := h.within b hb
      omega
  · refine List.pairwise_cons.mpr ⟨?_, h.apart⟩
    intro b hb
    exact .inr (h.within b hb).2

theorem Packed.raise (h : Packed lo hi l) (htop : hi ≤ top) : Packed lo top l :=
  ⟨fun b hb => ⟨(h.within b hb).1, Nat.le_trans (h.within b hb).2 htop⟩, h.apart⟩

theorem Packed.perm (h : Packed lo hi l) (hp : m.Perm l) : Packed lo hi m :=
  ⟨fun b hb => h.within b (hp.mem_iff.mp hb), (hp.pairwise_iff Apart.symm).mpr h.apart⟩

theorem Packed.sublist (h : Packed lo hi l) (hs : m.Sublist l) : Packed lo hi m :=
  ⟨fun b hb => h.within b (hs.subset hb), h.apart.sublist hs⟩

theorem Packed.subperm (h : Packed lo hi l) (hs : m.Subperm l) : Packed lo hi m := by
  obtain ⟨k, hkm, hkl⟩ := hs
  exact (h.sublist hkl).perm hkm.symm

theorem Packed.apart_of_mem (h : Packed lo hi l) (hb : b ∈ l) (hc : c ∈ l) (hne : b ≠ c) : Apart b c :=
  h.apart.forall hb hc hne

section Spread

open Function

variable {X : Type*} {f : X → ℕ × ℕ} {a : X}

/-- A family of stretches, some of which may not be there, in which all are apart. -/
structure Spread (lo hi : ℕ) (f : X → ℕ × ℕ) : Prop where
  within : ∀ x, f x = (0, 0) ∨ lo ≤ (f x).1 ∧ (f x).1 + (f x).2 ≤ hi
  apart : ∀ x y, x ≠ y → Apart (f x) (f y)

theorem spread_none : Spread lo hi (fun _ : X => (0, 0)) :=
  ⟨fun _ => .inl rfl, fun _ _ _ => .inl (Nat.le_refl _)⟩

theorem Spread.raise (h : Spread lo hi f) (htop : hi ≤ top) : Spread lo top f := by
  refine ⟨fun x => ?_, h.apart⟩
  obtain hx | ⟨hlo, hhi⟩ := h.within x
  · exact .inl hx
  · exact .inr ⟨hlo, Nat.le_trans hhi htop⟩

/-- Stretches are cut short or given up. -/
theorem Spread.shrink {g : X → ℕ × ℕ} (h : Spread lo hi f)
    (hg : ∀ x, g x = (0, 0) ∨ (g x).1 = (f x).1 ∧ (g x).2 ≤ (f x).2) : Spread lo hi g := by
  constructor
  · intro x
    obtain hx | ⟨hbase, hlen⟩ := hg x
    · exact .inl hx
    · obtain hf | ⟨hlo, hhi⟩ := h.within x
      · rw [hf] at hbase hlen
        exact .inl (Prod.ext hbase (Nat.le_zero.mp hlen))
      · exact .inr ⟨by omega, by omega⟩
  · intro x y hxy
    obtain hx | ⟨hbx, hlx⟩ := hg x
    · rw [hx]
      exact .inl (Nat.zero_le _)
    · obtain hy | ⟨hby, hly⟩ := hg y
      · rw [hy]
        exact .inr (Nat.zero_le _)
      · exact (h.apart x y hxy).mono ⟨by omega, by omega⟩ ⟨by omega, by omega⟩

variable [DecidableEq X]

theorem Spread.replace (h : Spread lo hi f) (hb : b = (0, 0) ∨ lo ≤ b.1 ∧ b.1 + b.2 ≤ hi)
    (hapart : ∀ x, x ≠ a → Apart b (f x)) : Spread lo hi (update f a b) := by
  constructor
  · intro x
    by_cases hx : x = a
    · subst hx
      simpa using hb
    · simpa [hx] using h.within x
  · intro x y hxy
    by_cases hx : x = a
    · subst hx
      rw [update_self, update_of_ne (Ne.symm hxy)]
      exact hapart y (Ne.symm hxy)
    · by_cases hy : y = a
      · subst hy
        rw [update_self, update_of_ne hx]
        exact (hapart x hx).symm
      · rw [update_of_ne hx, update_of_ne hy]
        exact h.apart x y hxy

/-- A stretch is taken from the upper bound. -/
theorem Spread.bump (h : Spread lo hi f) (hlo : lo ≤ hi) (htop : hi + n ≤ top) :
    Spread lo top (update f a (hi, n)) := by
  refine (h.raise (Nat.le_trans (Nat.le_add_right hi n) htop)).replace (.inr ⟨hlo, htop⟩) ?_
  intro x _
  obtain hx | ⟨-, hhi⟩ := h.within x
  · rw [hx]
    exact .inr (Nat.zero_le _)
  · exact .inr hhi

end Spread

end OS161.Regions
