import Mathlib.Data.Nat.Count

/-!
# Handing out the least free number

An allocator that always hands out the least number that is free. What is left
after `r` numbers are gone is the free numbers that have at least `r` free ones
below them; so which numbers a sequence of requests gets is known beforehand.
-/

set_option autoImplicit false

namespace OS161.FirstFit

variable {p q : ℕ → Prop} [DecidablePred p] [DecidablePred q] {n r s d : ℕ}

/-- What is free once the `r` least are not. -/
def Left (p : ℕ → Prop) [DecidablePred p] (r d : ℕ) : Prop := p d ∧ r ≤ Nat.count p d

instance (r : ℕ) : DecidablePred (Left p r) := fun _ => inferInstanceAs (Decidable (_ ∧ _))

/-- The least free number. -/
def Least (p : ℕ → Prop) (d : ℕ) : Prop := p d ∧ ∀ c < d, ¬p c

theorem count_congr (h : ∀ d, p d ↔ q d) (n : ℕ) : Nat.count p n = Nat.count q n := by
  induction n with
  | zero => simp
  | succ n ih => simp only [Nat.count_succ, ih, h n]

theorem left_zero : Left p 0 d ↔ p d := by simp [Left]

/-- The numbers that are gone are missing at the bottom. -/
theorem count_left (r n : ℕ) : Nat.count (Left p r) n = Nat.count p n - r := by
  induction n with
  | zero => simp
  | succ n ih =>
    rw [Nat.count_succ, Nat.count_succ, ih]
    by_cases hp : p n
    · by_cases hr : r ≤ Nat.count p n
      · rw [if_pos hp, if_pos ⟨hp, hr⟩]
        omega
      · rw [if_pos hp, if_neg (fun h => hr h.2)]
        omega
    · rw [if_neg hp, if_neg (fun h => hp h.1), Nat.add_zero, Nat.add_zero]

/-- Two sequences of requests, one after the other. -/
theorem left_add (h : ∀ d, q d ↔ Left p r d) (s d : ℕ) : Left q s d ↔ Left p (r+s) d := by
  have hcount : Nat.count q d = Nat.count p d - r := by rw [count_congr h, count_left]
  unfold Left at h ⊢
  rw [h d, hcount]
  constructor
  · rintro ⟨⟨hp, hr⟩, hs⟩
    exact ⟨hp, by omega⟩
  · rintro ⟨hp, hs⟩
    exact ⟨⟨hp, by omega⟩, by omega⟩

theorem least_iff : Least p d ↔ p d ∧ Nat.count p d = 0 := by
  simp only [Least, Nat.count_iff_forall_not]

/-- One request takes the least number and no other. -/
theorem left_one (h : Least p d) (c : ℕ) : Left p 1 c ↔ p c ∧ c ≠ d := by
  obtain ⟨hd, hcount⟩ := least_iff.mp h
  unfold Left
  constructor
  · rintro ⟨hc, hpos⟩
    refine ⟨hc, ?_⟩
    rintro rfl
    omega
  · rintro ⟨hc, hne⟩
    refine ⟨hc, ?_⟩
    by_contra hlt
    exact hne (Nat.count_injective hc hd (by omega))

/-- The next request gets the number with as many free ones below it as there have been requests. -/
theorem least_left (h : ∀ c, q c ↔ Left p r c) (hd : Least q d) : p d ∧ Nat.count p d = r := by
  obtain ⟨hq, hcount⟩ := least_iff.mp hd
  obtain ⟨hp, hr⟩ := (h d).mp hq
  rw [count_congr h, count_left] at hcount
  exact ⟨hp, by omega⟩

end OS161.FirstFit
