import Mathlib.Algebra.Order.Ring.Nat
import Mathlib.Tactic.Linarith
import Mathlib.Tactic.Ring

/-!
# Long division

Rows of digits stand for numbers, the highest digit first. A digit of a quotient is
guessed from three digits of the dividend and two of a divisor whose first digit is at
least half of the radix; the guess is then right or too large by one.
-/

set_option autoImplicit false

namespace OS161.Radix

/-- The number that the `k` digits from `a` on stand for. -/
def value (b : ℕ) (p : ℕ → ℕ) (a : ℕ) : ℕ → ℕ
  | 0 => 0
  | k+1 => value b p a k * b + p (a+k)

variable {b a a' k l : ℕ} {p p' : ℕ → ℕ}

theorem value_congr (h : ∀ i < k, p (a+i) = p' (a'+i)) : value b p a k = value b p' a' k := by
  induction k with
  | zero => rfl
  | succ k ih =>
    rw [value, value, ih fun i hi => h i (Nat.lt_succ_of_lt hi), h k (Nat.lt_succ_self k)]

theorem value_append (b : ℕ) (p : ℕ → ℕ) (a k l : ℕ) : value b p a (k+l) = value b p a k * b^l + value b p (a+k) l := by
  induction l with
  | zero => simp [value]
  | succ l ih =>
    rw [← Nat.add_assoc, value, ih, value, pow_succ, Nat.add_assoc a k l]
    ring

/-- The highest digit apart. -/
theorem value_left (b : ℕ) (p : ℕ → ℕ) (a k : ℕ) : value b p a (k+1) = p a * b^k + value b p (a+1) k := by
  rw [Nat.add_comm k 1, value_append]
  simp [value]

theorem value_lt (h : ∀ i < k, p (a+i) < b) : value b p a k < b^k := by
  induction k with
  | zero => exact Nat.one_pos
  | succ k ih =>
    have hrest := ih fun i hi => h i (Nat.lt_succ_of_lt hi)
    have hlast := h k (Nat.lt_succ_self k)
    calc value b p a k * b + p (a+k) < value b p a k * b + b := Nat.add_lt_add_left hlast _
      _ = (value b p a k + 1) * b := by ring
      _ ≤ b^k * b := Nat.mul_le_mul_right b hrest
      _ = b^(k+1) := (pow_succ b k).symm

theorem value_zeros (h : ∀ i < k, p (a+i) = 0) : value b p a k = 0 := by
  induction k with
  | zero => rfl
  | succ k ih => rw [value, ih fun i hi => h i (Nat.lt_succ_of_lt hi), h k (Nat.lt_succ_self k), Nat.zero_mul]

/-- A number with a first digit that is not zero. -/
theorem value_ge (hfirst : p a ≠ 0) : b^k ≤ value b p a (k+1) := by
  rw [value_left]
  calc b^k = 1 * b^k := (Nat.one_mul _).symm
    _ ≤ p a * b^k := Nat.mul_le_mul_right _ (Nat.pos_of_ne_zero hfirst)
    _ ≤ _ := Nat.le_add_right _ _

/-! Guessing a digit. -/

/-- A dividend `U` and a divisor `V` with digits of weight `w` and more: `U` starts with `u` and the digit `u₂`,
and `V` with `v₁` and `v₂`. -/
structure Window (b w u u₂ v₁ v₂ U V : ℕ) : Prop where
  radix : 2 ≤ b
  above : (u*b + u₂) * w ≤ U
  below : U < (u*b + u₂ + 1) * w
  divisorAbove : (v₁*b + v₂) * w ≤ V
  divisorBelow : V < (v₁*b + v₂ + 1) * w
  normal : b ≤ 2*v₁
  digit : u₂ < b
  divisorDigit : v₂ < b
  small : U < b*V

/-- A guess that is not too small, with what is left of `u`. -/
structure Trial (b u v₁ U V qhat rhat : ℕ) : Prop where
  enough : U / V ≤ qhat
  sum : qhat*v₁ + rhat = u
  digit : qhat < b

variable {w u u₂ v₁ v₂ U V qhat rhat : ℕ}

theorem Window.pos (h : Window b w u u₂ v₁ v₂ U V) : 0 < V := by
  refine Nat.pos_of_ne_zero fun hzero => ?_
  have hsmall := h.small
  rw [hzero, Nat.mul_zero] at hsmall
  exact absurd hsmall (Nat.not_lt_zero U)

/-- The first digit of the dividend is not larger than that of the divisor. -/
theorem Window.first_le {u₀ u₁ : ℕ} (h : Window b w (u₀*b + u₁) u₂ v₁ v₂ U V) : u₀ ≤ v₁ := by
  have hdivisor : v₂ + 1 ≤ b := h.divisorDigit
  have hless : ((u₀*b + u₁)*b + u₂) * w < (v₁+1)*b*b * w := calc
    ((u₀*b + u₁)*b + u₂) * w ≤ U := h.above
    _ < b*V := h.small
    _ ≤ b * ((v₁*b + v₂ + 1) * w) := Nat.mul_le_mul_left b (Nat.le_of_lt h.divisorBelow)
    _ = (v₁*b + (v₂ + 1)) * (b*w) := by ring
    _ ≤ (v₁*b + b) * (b*w) := Nat.mul_le_mul_right _ (Nat.add_le_add_left hdivisor _)
    _ = (v₁+1)*b*b * w := by ring
  have hless' : u₀*(b*b) < (v₁+1)*(b*b) := calc
    u₀*(b*b) ≤ (u₀*b + u₁)*b + u₂ := by nlinarith
    _ < (v₁+1)*b*b := Nat.lt_of_mul_lt_mul_right hless
    _ = (v₁+1)*(b*b) := Nat.mul_assoc _ _ _
  exact Nat.le_of_lt_succ (Nat.lt_of_mul_lt_mul_right hless')

/-- The first guess. -/
theorem Window.first (h : Window b w u u₂ v₁ v₂ U V) (hu : u < v₁*b) : Trial b u v₁ U V (u/v₁) (u%v₁) := by
  have hv : 0 < v₁ := by
    have hradix := h.radix
    have hnormal := h.normal
    omega
  refine ⟨?_, ?_, Nat.div_lt_of_lt_mul hu⟩
  · rw [Nat.le_div_iff_mul_le hv]
    have hw : 0 < b*w := by
      refine Nat.mul_pos (by have := h.radix; omega) (Nat.pos_of_ne_zero fun hzero => ?_)
      have hbelow := h.below
      rw [hzero, Nat.mul_zero] at hbelow
      exact absurd hbelow (Nat.not_lt_zero U)
    have hless : (U/V*v₁) * (b*w) < (u+1) * (b*w) := calc
      (U/V*v₁) * (b*w) = U/V * (v₁*b*w) := by ring
      _ ≤ U/V * V := Nat.mul_le_mul_left _ (le_trans (Nat.mul_le_mul_right w (Nat.le_add_right _ _)) h.divisorAbove)
      _ ≤ U := Nat.div_mul_le_self U V
      _ < (u*b + u₂ + 1) * w := h.below
      _ ≤ (u*b + b) * w := Nat.mul_le_mul_right w (by have := h.digit; omega)
      _ = (u+1) * (b*w) := by ring
    exact Nat.le_of_lt_succ (Nat.lt_of_mul_lt_mul_right hless)
  · rw [Nat.mul_comm]
    exact Nat.div_add_mod u v₁

/-- No digit is larger than `b-1`. -/
theorem Window.largest (h : Window b w u u₂ v₁ v₂ U V) (hsum : (b-1)*v₁ + rhat = u) : Trial b u v₁ U V (b-1) rhat := by
  have hradix := h.radix
  refine ⟨?_, hsum, by omega⟩
  have hlt : U / V < b := Nat.div_lt_of_lt_mul (by rw [Nat.mul_comm]; exact h.small)
  omega

/-- If the second digit of the divisor shows that the guess is too large, it is. -/
theorem Window.next (h : Window b w u u₂ v₁ v₂ U V) (ht : Trial b u v₁ U V (qhat+1) rhat) (hlarge : rhat*b + u₂ < v₂*(qhat+1)) :
    Trial b u v₁ U V qhat (rhat+v₁) := by
  have hU : U < (qhat+1) * V := calc
    U < (u*b + u₂ + 1) * w := h.below
    _ ≤ ((qhat+1) * (v₁*b + v₂)) * w := by
      refine Nat.mul_le_mul_right w ?_
      rw [← ht.sum]
      nlinarith
    _ = (qhat+1) * ((v₁*b + v₂) * w) := by ring
    _ ≤ (qhat+1) * V := Nat.mul_le_mul_left _ h.divisorAbove
  have hlt : U / V < qhat+1 := Nat.div_lt_of_lt_mul (by rw [Nat.mul_comm]; exact hU)
  refine ⟨Nat.le_of_lt_succ hlt, ?_, ?_⟩
  · rw [← ht.sum]
    ring
  · have := ht.digit
    omega

/-- A guess that is not seen to be too large is so by one at most. -/
theorem Window.stop (h : Window b w u u₂ v₁ v₂ U V) (ht : Trial b u v₁ U V qhat rhat) (hstop : b ≤ rhat ∨ v₂*qhat ≤ rhat*b + u₂) :
    qhat ≤ U / V + 1 := by
  have hdigit := ht.digit
  have hdivisor := h.divisorDigit
  have hradix := h.radix
  have hnormal := h.normal
  have hstop' : v₂*qhat ≤ rhat*b + u₂ := by
    obtain hlarge | hle := hstop
    · calc v₂*qhat ≤ b*b := Nat.mul_le_mul (Nat.le_of_lt hdivisor) (Nat.le_of_lt hdigit)
        _ ≤ rhat*b := Nat.mul_le_mul_right b hlarge
        _ ≤ _ := Nat.le_add_right _ _
    · exact hle
  have hguess : qhat * (v₁*b + v₂) ≤ u*b + u₂ := by
    rw [← ht.sum]
    nlinarith
  by_contra hfar
  obtain ⟨k, hqhat, hk⟩ : ∃ k, qhat = k+2 ∧ U / V ≤ k := by
    generalize U / V = quotient at hfar
    exact ⟨qhat-2, by omega, by omega⟩
  subst hqhat
  have hU : U < (k+1) * V := calc
    U < U / V * V + V := Nat.lt_div_mul_add h.pos
    _ = (U / V + 1) * V := by ring
    _ ≤ (k+1) * V := Nat.mul_le_mul_right V (Nat.succ_le_succ hk)
  have hless : (u*b + u₂) * w < ((k+1) * (v₁*b + v₂ + 1)) * w := calc
    (u*b + u₂) * w ≤ U := h.above
    _ < (k+1) * V := hU
    _ ≤ (k+1) * ((v₁*b + v₂ + 1) * w) := Nat.mul_le_mul_left _ (Nat.le_of_lt h.divisorBelow)
    _ = _ := by ring
  have hless' : u*b + u₂ < (k+1) * (v₁*b + v₂ + 1) := Nat.lt_of_mul_lt_mul_right hless
  have hv : b ≤ v₁*b := Nat.le_mul_of_pos_left b (by omega)
  nlinarith

/-! Division by a single digit. -/

theorem value_split (b : ℕ) (p : ℕ → ℕ) (a k t : ℕ) :
    value b p a (k+1) = value b p a k % t * b + p (a+k) + t * (value b p a k / t * b) := by
  calc value b p a k * b + p (a+k) = (t * (value b p a k / t) + value b p a k % t) * b + p (a+k) := by rw [Nat.div_add_mod]
    _ = value b p a k % t * b + p (a+k) + t * (value b p a k / t * b) := by ring

theorem value_div (b : ℕ) (p : ℕ → ℕ) (a k : ℕ) {t : ℕ} (ht : 0 < t) :
    value b p a (k+1) / t = value b p a k / t * b + (value b p a k % t * b + p (a+k)) / t := by
  rw [value_split b p a k t, Nat.add_mul_div_left _ _ ht, Nat.add_comm]

theorem value_mod (b : ℕ) (p : ℕ → ℕ) (a k t : ℕ) : value b p a (k+1) % t = (value b p a k % t * b + p (a+k)) % t := by
  rw [value_split b p a k t, Nat.add_mul_mod_self_left]

end OS161.Radix
