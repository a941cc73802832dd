import Mathlib.Data.Nat.Bitwise
import OS161.Radix

/-!
# Dividing 64-bit numbers

The processor divides words of 32 bits. The code that divides longer ones has digits
of 16 bits and does long division with them.
-/

set_option autoImplicit false

namespace OS161.Longlong

open Function OS161.Radix

def HALF_BITS : ℕ := 16

/-- The radix. -/
def B : ℕ := 2^16

def hhalf (x : ℕ) : ℕ := x >>> HALF_BITS

def lhalf (x : ℕ) : ℕ := x &&& (B-1)

def combine (a b : ℕ) : ℕ := (a <<< HALF_BITS) % 2^32 ||| b

/-- Subtraction of words. -/
def wsub (x y : ℕ) : ℕ := (x + (2^32 - y % 2^32)) % 2^32

/-- The digits of a number, from index 1 on. -/
def digits (x : ℕ) : ℕ → ℕ
  | 1 => hhalf (x / 2^32)
  | 2 => lhalf (x / 2^32)
  | 3 => hhalf (x % 2^32)
  | 4 => lhalf (x % 2^32)
  | _ => 0

/-- The number that has these digits. -/
def whole (p : ℕ → ℕ) : ℕ := combine (p 1) (p 2) * 2^32 + combine (p 3) (p 4)

/-- How many digits the divisor has, and how many are skipped; with one digit only there is another way. -/
def divisorDigits (v : ℕ → ℕ) : (n skipped : ℕ) → Option (ℕ × ℕ)
  | 0, _ => none
  | n+1, skipped =>
    if v (skipped+1) = 0 then if n = 1 then none else divisorDigits v n (skipped+1) else some (n+1, skipped)

/-- How many digits more the dividend has. It is not less than the divisor, so that it does not run out of digits. -/
def dividendDigits (u : ℕ → ℕ) : (m skipped : ℕ) → Option (ℕ × ℕ)
  | 0, skipped => if u (skipped+1) = 0 then none else some (0, skipped)
  | m+1, skipped => if u (skipped+1) = 0 then dividendDigits u m (skipped+1) else some (m+1, skipped)

/-- The loop of D1, where `t` has to reach half of the radix. -/
def shiftCount : (fuel t : ℕ) → ℕ
  | 0, _ => 0
  | fuel+1, t => if t < B/2 then shiftCount fuel ((t <<< 1) % 2^32) + 1 else 0

/-- `shl`, with `left` digits to go from `i` on. -/
def shl (sh : ℕ) : (left i : ℕ) → (ℕ → ℕ) → ℕ → ℕ
  | 0, i, p => update p i (lhalf (p i <<< sh))
  | left+1, i, p => shl sh left (i+1) (update p i (lhalf (p i <<< sh) ||| p (i+1) >>> (HALF_BITS - sh)))

/-- The loop of D3. -/
def correct (v₁ v₂ uj₂ : ℕ) : (qhat rhat : ℕ) → ℕ
  | 0, _ => 0
  | qhat+1, rhat =>
    if combine rhat uj₂ < v₂ * (qhat+1) then
      if B ≤ rhat + v₁ then qhat else correct v₁ v₂ uj₂ qhat (rhat + v₁)
    else qhat+1

/-- D3. -/
def trial (v₁ v₂ uj₀ uj₁ uj₂ : ℕ) : ℕ :=
  if uj₀ = v₁ then
    if B ≤ uj₁ + v₁ then B-1 else correct v₁ v₂ uj₂ (B-1) (uj₁ + v₁)
  else correct v₁ v₂ uj₂ (combine uj₀ uj₁ / v₁) (combine uj₀ uj₁ % v₁)

/-- The loop of D4, which goes from the last digit to the first, with the borrow `t`. -/
def mulSub (v : ℕ → ℕ) (qhat j : ℕ) : (i : ℕ) → (ℕ → ℕ) → ℕ → (ℕ → ℕ) × ℕ
  | 0, u, t => (u, t)
  | i+1, u, t =>
    let t := wsub (wsub (u (i+1+j)) (v (i+1) * qhat)) t
    mulSub v qhat j i (update u (i+1+j) (lhalf t)) ((B - hhalf t) &&& (B-1))

/-- The loop of D6, with the carry `t`. -/
def addBack (v : ℕ → ℕ) (j : ℕ) : (i : ℕ) → (ℕ → ℕ) → ℕ → (ℕ → ℕ) × ℕ
  | 0, u, t => (u, t)
  | i+1, u, t =>
    let t := t + (u (i+1+j) + v (i+1))
    addBack v j i (update u (i+1+j) (lhalf t)) (hhalf t)

/-- D3 to D6: a digit of the quotient, and what is left of the dividend. -/
def divideStep (n : ℕ) (v : ℕ → ℕ) (j : ℕ) (u : ℕ → ℕ) : ℕ × (ℕ → ℕ) :=
  let qhat := trial (v 1) (v 2) (u j) (u (j+1)) (u (j+2))
  let r := mulSub v qhat j n u 0
  let t := wsub (r.1 j) r.2
  let u := update r.1 j (lhalf t)
  if hhalf t ≠ 0 then
    let r := addBack v j n u 0
    (qhat-1, update r.1 j (lhalf (r.1 j + r.2)))
  else (qhat, u)

/-- D2 and D7, with `left` digits of the quotient to go. -/
def divideLoop (n : ℕ) (v : ℕ → ℕ) : (left j : ℕ) → (u q : ℕ → ℕ) → (ℕ → ℕ) × (ℕ → ℕ)
  | 0, _, u, q => (u, q)
  | left+1, j, u, q =>
    divideLoop n v left (j+1) (divideStep n v j u).2 (update q j (lhalf (divideStep n v j u).1))

/-- The remainder is shifted back, from the last of its digits to the first, which is digit `m+1`. -/
def unshift (d m : ℕ) : (left : ℕ) → (ℕ → ℕ) → ℕ → ℕ
  | 0, u => update u m 0
  | left+1, u => unshift d m left (update u (m+left+1) (u (m+left+1) >>> d ||| lhalf (u (m+left) <<< (HALF_BITS - d))))

/-- The first digits of one row with another one behind them. -/
def overlay (skipped : ℕ) (p p' : ℕ → ℕ) (i : ℕ) : ℕ := if i < skipped then p i else p' (i - skipped)

/-- Long division by a single digit. -/
def shortDivision (u : ℕ → ℕ) (t : ℕ) : ℕ × ℕ :=
  let q₁ := u 1 / t
  let rbj := combine (u 1 % t) (u 2)
  let q₂ := rbj / t
  let rbj := combine (rbj % t) (u 3)
  let q₃ := rbj / t
  let rbj := combine (rbj % t) (u 4)
  let q₄ := rbj / t
  (combine (lhalf q₁) (lhalf q₂) * 2^32 + combine (lhalf q₃) (lhalf q₄), rbj % t)

/-- Long division by `n` digits of what has `m+n`, from D1 on: the digits of the remainder and of the quotient. -/
def longDivision (n m : ℕ) (u v : ℕ → ℕ) : (ℕ → ℕ) × (ℕ → ℕ) :=
  let d := shiftCount HALF_BITS (v 1)
  let u := if 0 < d then shl d (m+n) 0 u else u
  let v := if 0 < d then shl d (n-1) 1 v else v
  let r := divideLoop n v (m+1) 0 u fun _ => 0
  (if d ≠ 0 then unshift d m n r.1 else r.1, r.2)

/-- `__qdivrem`: the quotient and the remainder. A division by zero traps. -/
def qdivrem (ull vll : ℕ) : Option (ℕ × ℕ) :=
  if vll = 0 then none
  else if ull < vll then some (0, ull)
  else
    match divisorDigits (digits vll) 4 0 with
    | none => some (shortDivision (digits ull) (digits vll 4))
    | some (n, vskip) =>
      match dividendDigits (digits ull) (4-n) 0 with
      | none => none
      | some (m, uskip) =>
        let r := longDivision n m (fun i => digits ull (uskip+i)) fun i => digits vll (vskip+i)
        some (whole (overlay (4-m) (fun _ => 0) r.2), whole (overlay uskip (digits ull) r.1))

variable {a b d i j k left m n qhat rhat s sh t u₀ w x y U V : ℕ} {p p' u v q : ℕ → ℕ}

/-! Halves and digits. -/

theorem hhalf_eq (x : ℕ) : hhalf x = x / B := Nat.shiftRight_eq_div_pow x 16

theorem lhalf_eq (x : ℕ) : lhalf x = x % B := Nat.and_two_pow_sub_one_eq_mod x 16

theorem lhalf_lt (x : ℕ) : lhalf x < B := by
  rw [lhalf_eq]
  exact Nat.mod_lt x (by decide)

theorem combine_eq (ha : a < B) (hb : b < B) : combine a b = a*B + b := by
  unfold combine HALF_BITS
  rw [Nat.shiftLeft_eq, Nat.mod_eq_of_lt (by unfold B at ha; omega), ← Nat.shiftLeft_eq, ← Nat.shiftLeft_add_eq_or_of_lt hb,
    Nat.shiftLeft_eq]
  rfl

theorem digits_lt (hx : x < 2^64) (i : ℕ) : digits x i < B := by
  unfold digits
  split
  · rw [hhalf_eq]
    unfold B
    omega
  · exact lhalf_lt _
  · rw [hhalf_eq]
    unfold B
    omega
  · exact lhalf_lt _
  · decide

theorem digits_value (x : ℕ) : value B (digits x) 1 4 = x := by
  simp only [value, digits, hhalf_eq, lhalf_eq]
  unfold B
  omega

theorem whole_value (hp : ∀ i, p i < B) : whole p = value B p 1 4 := by
  unfold whole
  rw [combine_eq (hp 1) (hp 2), combine_eq (hp 3) (hp 4)]
  simp only [value]
  unfold B
  ring

/-- A digit that is shifted with the next one behind it. -/
theorem digit_or (hsh : sh ≤ 16) (hb : b < B) : lhalf (a <<< sh) ||| b >>> (HALF_BITS - sh) = a*2^sh % B + b*2^sh / B := by
  have hB : B = 2^(16-sh) * 2^sh := by
    rw [← pow_add, Nat.sub_add_cancel hsh]
    rfl
  have hlow : lhalf (a <<< sh) = (a % 2^(16-sh)) <<< sh := by
    rw [lhalf_eq, Nat.shiftLeft_eq, Nat.shiftLeft_eq, hB, Nat.mul_mod_mul_right]
  have hhigh : b >>> (HALF_BITS - sh) = b*2^sh / B := by
    rw [Nat.shiftRight_eq_div_pow, hB, Nat.mul_div_mul_right _ _ (Nat.two_pow_pos sh)]
    rfl
  have hlt : b >>> (HALF_BITS - sh) < 2^sh := by
    rw [hhigh]
    refine Nat.div_lt_of_lt_mul ?_
    exact Nat.mul_lt_mul_of_pos_right hb (Nat.two_pow_pos sh)
  rw [hlow, ← Nat.shiftLeft_add_eq_or_of_lt hlt, hhigh, Nat.shiftLeft_eq, hB, Nat.mul_mod_mul_right]

theorem update_lt (hp : ∀ k, p k < B) (hx : x < B) : ∀ k, update p i x k < B := by
  intro k
  by_cases hk : k = i
  · rw [hk, update_self]
    exact hx
  · rw [update_of_ne hk]
    exact hp k

/-! Shifting rows of digits. -/

theorem shl_spec (hp : ∀ i, p i < B) (hsh : sh ≤ 16) : (∀ k, shl sh left i p k < B) ∧
    p i * 2^sh / B * B^(left+1) + value B (shl sh left i p) i (left+1) = value B p i (left+1) * 2^sh ∧
    ∀ k, k < i ∨ i+left < k → shl sh left i p k = p k := by
  induction left generalizing i p with
  | zero =>
    refine ⟨update_lt hp (lhalf_lt _), ?_, fun k hk => update_of_ne (by omega) _ _⟩
    · simp only [value, shl, Nat.add_zero, update_self, lhalf_eq, Nat.shiftLeft_eq, Nat.zero_mul, Nat.zero_add, pow_one]
      rw [Nat.mul_comm]
      exact Nat.div_add_mod _ _
  | succ left ih =>
    obtain ⟨x, hx⟩ : ∃ x, x = lhalf (p i <<< sh) ||| p (i+1) >>> (HALF_BITS - sh) := ⟨_, rfl⟩
    have hshl : shl sh (left+1) i p = shl sh left (i+1) (update p i x) := by rw [shl, hx]
    have hsum : x = p i*2^sh % B + p (i+1)*2^sh / B := hx.trans (digit_or hsh (hp (i+1)))
    have hxlt : x < B := by
      rw [hx]
      exact Nat.or_lt_two_pow (lhalf_lt _) (Nat.lt_of_le_of_lt (Nat.shiftRight_le _ _) (hp (i+1)))
    obtain ⟨hdigits, hvalue, hother⟩ := ih (i := i+1) (update_lt hp hxlt)
    have hrest : value B (update p i x) (i+1) (left+1) = value B p (i+1) (left+1) :=
      value_congr fun l _ => update_of_ne (by omega) _ _
    have hfirst : shl sh left (i+1) (update p i x) i = x := by
      rw [hother i (.inl (Nat.lt_succ_self i)), update_self]
    rw [hrest, update_of_ne (by omega)] at hvalue
    rw [hshl]
    refine ⟨hdigits, ?_, fun k hk => ?_⟩
    · rw [value_left B (shl sh left (i+1) (update p i x)) i (left+1), value_left B p i (left+1), hfirst]
      generalize value B (shl sh left (i+1) (update p i x)) (i+1) (left+1) = shifted at hvalue ⊢
      rw [hsum, pow_succ B (left+1)]
      calc p i*2^sh / B * (B^(left+1) * B) + ((p i*2^sh % B + p (i+1)*2^sh / B) * B^(left+1) + shifted)
          = (B * (p i*2^sh / B) + p i*2^sh % B) * B^(left+1) + (p (i+1)*2^sh / B * B^(left+1) + shifted) := by ring
        _ = p i*2^sh * B^(left+1) + value B p (i+1) (left+1) * 2^sh := by rw [Nat.div_add_mod, hvalue]
        _ = (p i * B^(left+1) + value B p (i+1) (left+1)) * 2^sh := by ring
    · rw [hother k (by omega)]
      exact update_of_ne (by omega) _ _

/-- A divisor or a dividend is only shifted if it has to be. -/
theorem shifted_spec (left i : ℕ) (hp : ∀ i, p i < B) (hsh : sh ≤ 16) :
    let p' := if 0 < sh then shl sh left i p else p
    (∀ k, p' k < B) ∧ p i * 2^sh / B * B^(left+1) + value B p' i (left+1) = value B p i (left+1) * 2^sh ∧
    ∀ k, k < i ∨ i+left < k → p' k = p k := by
  obtain rfl | hpos := Nat.eq_zero_or_pos sh
  · refine ⟨hp, ?_, fun k _ => rfl⟩
    rw [if_neg (Nat.lt_irrefl 0), pow_zero, Nat.mul_one, Nat.mul_one, Nat.div_eq_of_lt (hp i), Nat.zero_mul, Nat.zero_add]
  · rw [if_pos hpos]
    exact shl_spec hp hsh

/-- A digit that is shifted back. -/
theorem digit_back (hd : d ≤ 16) (hb : b < B) :
    b >>> d ||| lhalf (a <<< (HALF_BITS - d)) = a*2^(16-d) % B + b*2^(16-d) / B := by
  have hor := digit_or (a := a) (Nat.sub_le 16 d) hb
  rw [Nat.or_comm]
  unfold HALF_BITS at hor ⊢
  rwa [Nat.sub_sub_self hd] at hor

/-- The digits that are shifted back, as they are after digit `m`. -/
theorem unshift_spec (m left : ℕ) (hp : ∀ i, p i < B) (hd : d ≤ 16) : (∀ k, unshift d m left p k < B) ∧
    value B (unshift d m left p) (m+1) left * B + p (m+left) * 2^(16-d) % B =
      value B p (m+1) left * 2^(16-d) + p m * 2^(16-d) % B * B^left ∧
    unshift d m left p m = 0 ∧ ∀ k, k < m ∨ m+left < k → unshift d m left p k = p k := by
  induction left generalizing p with
  | zero =>
    refine ⟨update_lt hp (by decide), ?_, update_self _ _ _, fun k hk => update_of_ne (by omega) _ _⟩
    simp [value]
  | succ left ih =>
    obtain ⟨x, hx⟩ : ∃ x, x = p (m+left+1) >>> d ||| lhalf (p (m+left) <<< (HALF_BITS - d)) := ⟨_, rfl⟩
    have hstep : unshift d m (left+1) p = unshift d m left (update p (m+left+1) x) := by rw [unshift, hx]
    have hsum : x = p (m+left)*2^(16-d) % B + p (m+left+1)*2^(16-d) / B := hx.trans (digit_back hd (hp _))
    have hxlt : x < B := by
      rw [hx]
      exact Nat.or_lt_two_pow (Nat.lt_of_le_of_lt (Nat.shiftRight_le _ _) (hp _)) (lhalf_lt _)
    obtain ⟨hdigits, hvalue, hzero, hother⟩ := ih (p := update p (m+left+1) x) (update_lt hp hxlt)
    have hrest : value B (update p (m+left+1) x) (m+1) left = value B p (m+1) left :=
      value_congr fun l hl => update_of_ne (by omega) _ _
    have hlast : unshift d m left (update p (m+left+1) x) (m+1+left) = x := by
      rw [hother _ (by omega), show m+1+left = m+left+1 from Nat.succ_add_eq_add_succ m left ▸ rfl, update_self]
    rw [hrest, update_of_ne (by omega), update_of_ne (by omega)] at hvalue
    rw [hstep]
    refine ⟨hdigits, ?_, hzero, fun k hk => ?_⟩
    · rw [value, value, hlast]
      generalize value B (unshift d m left (update p (m+left+1) x)) (m+1) left = back at hvalue ⊢
      rw [hsum, show m+1+left = m+left+1 by omega, show m+(left+1) = m+left+1 by omega, pow_succ B left]
      calc (back * B + (p (m+left)*2^(16-d) % B + p (m+left+1)*2^(16-d) / B)) * B + p (m+left+1)*2^(16-d) % B
          = (back * B + p (m+left)*2^(16-d) % B) * B + (B * (p (m+left+1)*2^(16-d) / B) + p (m+left+1)*2^(16-d) % B) := by ring
        _ = (value B p (m+1) left * 2^(16-d) + p m * 2^(16-d) % B * B^left) * B + p (m+left+1)*2^(16-d) := by
          rw [hvalue, Nat.div_add_mod]
        _ = (value B p (m+1) left * B + p (m+left+1)) * 2^(16-d) + p m * 2^(16-d) % B * (B^left * B) := by ring
    · rw [hother k (by omega)]
      exact update_of_ne (by omega) _ _

/-- If there is no digit before it, a row is divided by a power of two. -/
theorem unshift_value (hp : ∀ i, p i < B) (hd : d ≤ 16) (hzero : p m = 0) :
    value B (unshift d m left p) (m+1) left = value B p (m+1) left / 2^d := by
  obtain ⟨-, hvalue, -, -⟩ := unshift_spec m left hp hd
  simp only [hzero, Nat.zero_mul, Nat.zero_mod, Nat.add_zero] at hvalue
  have hB : B = 2^d * 2^(16-d) := by
    rw [← pow_add, Nat.add_sub_cancel' hd]
    rfl
  have hdrop : p (m+left) * 2^(16-d) % B / B = 0 := Nat.div_eq_of_lt (Nat.mod_lt _ (by decide))
  calc value B (unshift d m left p) (m+1) left
      = value B (unshift d m left p) (m+1) left + p (m+left) * 2^(16-d) % B / B := by rw [hdrop]; rfl
    _ = (B * value B (unshift d m left p) (m+1) left + p (m+left) * 2^(16-d) % B) / B := (Nat.mul_add_div (by decide) _ _).symm
    _ = value B p (m+1) left * 2^(16-d) / (2^d * 2^(16-d)) := by rw [Nat.mul_comm, hvalue, ← hB]
    _ = value B p (m+1) left / 2^d := Nat.mul_div_mul_right _ _ (Nat.two_pow_pos (16-d))

/-- A remainder is only shifted back if it has to be. -/
theorem shiftedBack_spec (left : ℕ) (hp : ∀ i, p i < B) (hd : d ≤ 16) (hzeros : ∀ k ≤ m, p k = 0) :
    let p' := if d ≠ 0 then unshift d m left p else p
    (∀ k, p' k < B) ∧ value B p' (m+1) left = value B p (m+1) left / 2^d ∧ ∀ k ≤ m, p' k = 0 := by
  by_cases hnone : d = 0
  · rw [hnone, if_neg (not_not.mpr rfl), pow_zero, Nat.div_one]
    exact ⟨hp, rfl, hzeros⟩
  · rw [if_pos hnone]
    obtain ⟨hdigits, -, hfirst, hother⟩ := unshift_spec m left hp hd
    refine ⟨hdigits, unshift_value hp hd (hzeros m (Nat.le_refl m)), fun k hk => ?_⟩
    obtain rfl | hlt := Nat.eq_or_lt_of_le hk
    · exact hfirst
    · rw [hother k (.inl hlt), hzeros k hk]

/-! A digit of the quotient. -/

theorem correct_right {v₁ v₂ u₂ : ℕ} (hw : Window B w x u₂ v₁ v₂ U V) (ht : Trial B x v₁ U V qhat s) (hs : s < B) :
    U / V ≤ correct v₁ v₂ u₂ qhat s ∧ correct v₁ v₂ u₂ qhat s ≤ U / V + 1 ∧ correct v₁ v₂ u₂ qhat s < B := by
  induction qhat generalizing s with
  | zero => exact ⟨ht.enough, Nat.zero_le _, ht.digit⟩
  | succ qhat ih =>
    unfold correct
    rw [combine_eq hs hw.digit]
    by_cases hlarge : s*B + u₂ < v₂ * (qhat+1)
    · have hnext := hw.next ht hlarge
      rw [if_pos hlarge]
      by_cases hstop : B ≤ s + v₁
      · rw [if_pos hstop]
        exact ⟨hnext.enough, hw.stop hnext (.inl hstop), hnext.digit⟩
      · rw [if_neg hstop]
        exact ih hnext (Nat.lt_of_not_le hstop)
    · rw [if_neg hlarge]
      exact ⟨ht.enough, hw.stop ht (.inr (Nat.le_of_not_lt hlarge)), ht.digit⟩

/-- The digit that D3 finds is right or too large by one. -/
theorem trial_right {v₁ v₂ u₀ u₁ u₂ : ℕ} (hw : Window B w (u₀*B + u₁) u₂ v₁ v₂ U V) (hu₁ : u₁ < B) (hv₁ : v₁ < B) :
    U / V ≤ trial v₁ v₂ u₀ u₁ u₂ ∧ trial v₁ v₂ u₀ u₁ u₂ ≤ U / V + 1 ∧ trial v₁ v₂ u₀ u₁ u₂ < B := by
  have hle := hw.first_le
  unfold trial
  by_cases heq : u₀ = v₁
  · have ht : Trial B (u₀*B + u₁) v₁ U V (B-1) (u₁ + v₁) := hw.largest (by
      rw [heq]
      unfold B
      omega)
    rw [if_pos heq]
    by_cases hstop : B ≤ u₁ + v₁
    · rw [if_pos hstop]
      exact ⟨ht.enough, hw.stop ht (.inl hstop), ht.digit⟩
    · rw [if_neg hstop]
      exact correct_right hw ht (Nat.lt_of_not_le hstop)
  · have hlt : u₀ < v₁ := Nat.lt_of_le_of_ne hle heq
    have hfirst : u₀*B + u₁ < v₁*B := calc
      u₀*B + u₁ < u₀*B + B := Nat.add_lt_add_left hu₁ _
      _ = (u₀+1)*B := by ring
      _ ≤ v₁*B := Nat.mul_le_mul_right B hlt
    rw [if_neg heq, combine_eq (Nat.lt_trans hlt hv₁) hu₁]
    exact correct_right hw (hw.first hfirst) (Nat.lt_trans (Nat.mod_lt _ (Nat.zero_lt_of_lt hlt)) hv₁)

/-- A digit that is subtracted with a borrow `t`, and the borrow that comes from it. -/
theorem borrow_spec (hx : x < B) (hy : y + t ≤ (B-1)*B) :
    lhalf (wsub (wsub x y) t) + y + t = x + ((B - hhalf (wsub (wsub x y) t)) &&& (B-1)) * B ∧
    ((B - hhalf (wsub (wsub x y) t)) &&& (B-1)) < B := by
  have hmask : ∀ z, z &&& (B-1) = z % B := lhalf_eq
  rw [hmask, hhalf_eq, lhalf_eq]
  unfold wsub B at *
  omega

theorem mulSub_spec (hu : ∀ k, u k < B) (hv : ∀ k, v k < B) (hqhat : qhat < B) (ht : t < B) :
    (∀ k, (mulSub v qhat j i u t).1 k < B) ∧ (mulSub v qhat j i u t).2 < B ∧
    value B (mulSub v qhat j i u t).1 (j+1) i + qhat * value B v 1 i + t =
      value B u (j+1) i + (mulSub v qhat j i u t).2 * B^i ∧
    ∀ k, k ≤ j ∨ j+i < k → (mulSub v qhat j i u t).1 k = u k := by
  induction i generalizing u t with
  | zero => exact ⟨hu, ht, by simp [value, mulSub], fun _ _ => rfl⟩
  | succ i ih =>
    have hproduct : v (i+1) * qhat + t ≤ (B-1)*B := calc
      v (i+1) * qhat + t ≤ (B-1)*(B-1) + (B-1) := by
        refine Nat.add_le_add (Nat.mul_le_mul ?_ ?_) ?_
        · exact Nat.le_sub_one_of_lt (hv _)
        · exact Nat.le_sub_one_of_lt hqhat
        · exact Nat.le_sub_one_of_lt ht
      _ ≤ (B-1)*B := by decide
    obtain ⟨hdigit, ht'⟩ := borrow_spec (hu (i+1+j)) hproduct
    unfold mulSub
    dsimp only
    generalize wsub (wsub (u (i+1+j)) (v (i+1) * qhat)) t = s at hdigit ht' ⊢
    generalize (B - hhalf s) &&& (B-1) = t' at hdigit ht' ⊢
    obtain ⟨hdigits, hborrow, hvalue, hother⟩ := ih (update_lt (i := i+1+j) hu (lhalf_lt s)) ht'
    have hrest : value B (update u (i+1+j) (lhalf s)) (j+1) i = value B u (j+1) i :=
      value_congr fun l hl => update_of_ne (by omega) _ _
    have hlast : (mulSub v qhat j i (update u (i+1+j) (lhalf s)) t').1 (j+1+i) = lhalf s := by
      rw [hother _ (by omega), show j+1+i = i+1+j by omega, update_self]
    refine ⟨hdigits, hborrow, ?_, fun k hk => ?_⟩
    · rw [hrest] at hvalue
      rw [value, value, value, hlast, show j+1+i = i+1+j by omega, Nat.add_comm 1 i, pow_succ B i]
      generalize value B (mulSub v qhat j i (update u (i+1+j) (lhalf s)) t').1 (j+1) i = rest at hvalue ⊢
      generalize (mulSub v qhat j i (update u (i+1+j) (lhalf s)) t').2 = t'' at hvalue ⊢
      calc rest * B + lhalf s + qhat * (value B v 1 i * B + v (i+1)) + t
          = (rest + qhat * value B v 1 i) * B + (lhalf s + v (i+1) * qhat + t) := by ring
        _ = (rest + qhat * value B v 1 i + t') * B + u (i+1+j) := by
          rw [hdigit]
          ring
        _ = value B u (j+1) i * B + u (i+1+j) + t'' * (B^i * B) := by
          rw [hvalue]
          ring
    · rw [hother k (by omega)]
      exact update_of_ne (by omega) _ _

theorem addBack_spec (hu : ∀ k, u k < B) (hv : ∀ k, v k < B) (ht : t ≤ 1) :
    (∀ k, (addBack v j i u t).1 k < B) ∧ (addBack v j i u t).2 ≤ 1 ∧
    value B (addBack v j i u t).1 (j+1) i + (addBack v j i u t).2 * B^i = value B u (j+1) i + value B v 1 i + t ∧
    ∀ k, k ≤ j ∨ j+i < k → (addBack v j i u t).1 k = u k := by
  induction i generalizing u t with
  | zero => exact ⟨hu, ht, by simp [value, addBack], fun _ _ => rfl⟩
  | succ i ih =>
    have hcarry : hhalf (t + (u (i+1+j) + v (i+1))) ≤ 1 := by
      have hu' := hu (i+1+j)
      have hv' := hv (i+1)
      rw [hhalf_eq]
      unfold B at *
      omega
    have hdigit : B * hhalf (t + (u (i+1+j) + v (i+1))) + lhalf (t + (u (i+1+j) + v (i+1))) = t + (u (i+1+j) + v (i+1)) := by
      rw [hhalf_eq, lhalf_eq]
      exact Nat.div_add_mod _ _
    unfold addBack
    dsimp only
    generalize hs : t + (u (i+1+j) + v (i+1)) = s at hdigit hcarry ⊢
    obtain ⟨hdigits, hcarry', hvalue, hother⟩ := ih (update_lt (i := i+1+j) hu (lhalf_lt s)) hcarry
    have hrest : value B (update u (i+1+j) (lhalf s)) (j+1) i = value B u (j+1) i :=
      value_congr fun l hl => update_of_ne (by omega) _ _
    have hlast : (addBack v j i (update u (i+1+j) (lhalf s)) (hhalf s)).1 (j+1+i) = lhalf s := by
      rw [hother _ (by omega), show j+1+i = i+1+j by omega, update_self]
    refine ⟨hdigits, hcarry', ?_, fun k hk => ?_⟩
    · rw [hrest] at hvalue
      rw [value, value, value, hlast, show j+1+i = i+1+j by omega, Nat.add_comm 1 i, pow_succ B i]
      generalize value B (addBack v j i (update u (i+1+j) (lhalf s)) (hhalf s)).1 (j+1) i = rest at hvalue ⊢
      generalize (addBack v j i (update u (i+1+j) (lhalf s)) (hhalf s)).2 = t' at hvalue ⊢
      calc rest * B + lhalf s + t' * (B^i * B) = (rest + t' * B^i) * B + lhalf s := by ring
        _ = (value B u (j+1) i + value B v 1 i) * B + (B * hhalf s + lhalf s) := by
          rw [hvalue]
          ring
        _ = value B u (j+1) i * B + u (i+1+j) + (value B v 1 i * B + v (i+1)) + t := by
          rw [hdigit, ← hs]
          ring
    · rw [hother k (by omega)]
      exact update_of_ne (by omega) _ _

/-- The first three digits of the dividend and the first two of the divisor. -/
theorem window_of (hn : 2 ≤ n) (hu : ∀ k, u k < B) (hv : ∀ k, v k < B) (hnormal : B ≤ 2 * v 1)
    (hless : value B u j n < value B v 1 n) :
    Window B (B^(n-2)) (u j * B + u (j+1)) (u (j+2)) (v 1) (v 2) (value B u j (n+1)) (value B v 1 n) := by
  obtain ⟨n, rfl⟩ := Nat.exists_eq_add_of_le' hn
  have hdividend : value B u j (n+2+1) = ((u j * B + u (j+1)) * B + u (j+2)) * B^n + value B u (j+3) n := by
    rw [show n+2+1 = 3+n by omega, value_append]
    simp [value]
  have hdivisor : value B v 1 (n+2) = (v 1 * B + v 2) * B^n + value B v 3 n := by
    rw [show n+2 = 2+n by omega, value_append]
    simp [value]
  have hdividend' := value_lt (b := B) (p := u) (a := j+3) (k := n) fun i _ => hu _
  have hdivisor' := value_lt (b := B) (p := v) (a := 3) (k := n) fun i _ => hv _
  rw [Nat.add_sub_cancel]
  refine ⟨by decide, ?_, ?_, ?_, ?_, hnormal, hu _, hv _, ?_⟩
  · rw [hdividend]
    exact Nat.le_add_right _ _
  · rw [hdividend, add_one_mul]
    exact Nat.add_lt_add_left hdividend' _
  · rw [hdivisor]
    exact Nat.le_add_right _ _
  · rw [hdivisor, add_one_mul]
    exact Nat.add_lt_add_left hdivisor' _
  · calc value B u j (n+2) * B + u (j+(n+2)) < value B u j (n+2) * B + B := Nat.add_lt_add_left (hu _) _
      _ = B * (value B u j (n+2) + 1) := by ring
      _ ≤ B * value B v 1 (n+2) := Nat.mul_le_mul_left B hless

/-- One digit of the quotient is found, and the remainder takes the place of the dividend. -/
theorem divideStep_spec (hn : 2 ≤ n) (hu : ∀ k, u k < B) (hv : ∀ k, v k < B) (hnormal : B ≤ 2 * v 1)
    (hless : value B u j n < value B v 1 n) :
    (divideStep n v j u).1 = value B u j (n+1) / value B v 1 n ∧
    value B (divideStep n v j u).2 j (n+1) = value B u j (n+1) % value B v 1 n ∧
    (∀ k, (divideStep n v j u).2 k < B) ∧ ∀ k, k < j ∨ j+n < k → (divideStep n v j u).2 k = u k := by
  have hwindow := window_of hn hu hv hnormal hless
  have hpos := hwindow.pos
  obtain ⟨henough, hclose, hqhat⟩ := trial_right hwindow (hu _) (hv _)
  unfold divideStep
  dsimp only
  generalize trial (v 1) (v 2) (u j) (u (j+1)) (u (j+2)) = qhat at henough hclose hqhat ⊢
  obtain ⟨hdigits, hborrow, hvalue, hother⟩ := mulSub_spec (j := j) (i := n) hu hv hqhat (t := 0) (by decide)
  generalize mulSub v qhat j n u 0 = r at hdigits hborrow hvalue hother ⊢
  rw [hother j (.inl (Nat.le_refl j))]
  have hV : value B v 1 n < B^n := value_lt fun _ _ => hv _
  have hU : value B u j (n+1) = u j * B^n + value B u (j+1) n := value_left B u j n
  have hdivision := Nat.div_add_mod (value B u j (n+1)) (value B v 1 n)
  have hrem := Nat.mod_lt (value B u j (n+1)) hpos
  have htop := hu j
  have hframe : ∀ x k, k < j ∨ j+n < k → update r.1 j x k = u k := by
    intro x k hk
    rw [update_of_ne (by omega)]
    exact hother k (by omega)
  have hvalueAt : ∀ x, value B (update r.1 j x) j (n+1) = x * B^n + value B r.1 (j+1) n := by
    intro x
    rw [value_left, update_self, value_congr fun i _ => update_of_ne (by omega) _ _]
  rw [Nat.add_zero] at hvalue
  by_cases hless' : u j < r.2
  · -- The guess was too large: the divisor is added again, and a carry out of the first digit is lost.
    obtain ⟨hhigh, hlow⟩ : hhalf (wsub (u j) r.2) ≠ 0 ∧ lhalf (wsub (u j) r.2) + r.2 = B + u j := by
      rw [hhalf_eq, lhalf_eq]
      unfold wsub B at *
      omega
    rw [if_pos hhigh]
    generalize lhalf (wsub (u j) r.2) = x at hlow ⊢
    have hx : x < B := by omega
    have hshort : value B (update r.1 j x) j (n+1) + qhat * value B v 1 n = B * B^n + value B u j (n+1) := by
      rw [hvalueAt, hU]
      calc x * B^n + value B r.1 (j+1) n + qhat * value B v 1 n
          = x * B^n + (value B u (j+1) n + r.2 * B^n) := by rw [Nat.add_assoc, hvalue]
        _ = (x + r.2) * B^n + value B u (j+1) n := by ring
        _ = B * B^n + (u j * B^n + value B u (j+1) n) := by
          rw [hlow]
          ring
    have hlarge : value B u j (n+1) < qhat * value B v 1 n := by
      have hbelow : value B (update r.1 j x) j (n+1) < B^(n+1) := value_lt fun i _ => update_lt hdigits hx _
      rw [pow_succ'] at hbelow
      omega
    have hone : qhat = value B u j (n+1) / value B v 1 n + 1 :=
      Nat.le_antisymm hclose (Nat.div_lt_of_lt_mul (by rwa [Nat.mul_comm]))
    obtain ⟨hdigits', hcarry, hsum, hother'⟩ := addBack_spec (j := j) (i := n) (update_lt (i := j) hdigits hx) hv (t := 0) (by decide)
    generalize addBack v j n (update r.1 j x) 0 = r' at hdigits' hcarry hsum hother' ⊢
    rw [hother' j (.inl (Nat.le_refl j)), update_self]
    rw [Nat.add_zero] at hsum
    have hrest : value B r'.1 (j+1) n < B^n := value_lt fun _ _ => hdigits' _
    have hback : (x + r'.2) * B^n + value B r'.1 (j+1) n = B * B^n + value B u j (n+1) % value B v 1 n := by
      rw [value_left, update_self] at hshort
      have hproduct : qhat * value B v 1 n = value B v 1 n * (value B u j (n+1) / value B v 1 n) + value B v 1 n := by
        rw [hone]
        ring
      rw [Nat.add_mul]
      omega
    have hfull : x + r'.2 = B := by
      refine Nat.le_antisymm (by omega) (Nat.le_of_not_lt fun hbelow => ?_)
      have hmul : (x + r'.2 + 1) * B^n ≤ B * B^n := Nat.mul_le_mul_right _ hbelow
      rw [add_one_mul] at hmul
      omega
    have hzero : lhalf B = 0 := by decide
    dsimp only
    refine ⟨Nat.sub_eq_of_eq_add hone, ?_, update_lt hdigits' (by rw [hfull, hzero]; decide), fun k hk => ?_⟩
    · rw [value_left, update_self, value_congr fun i _ => update_of_ne (by omega) _ _, hfull, hzero]
      rw [hfull] at hback
      omega
    · rw [update_of_ne (by omega), hother' k (by omega)]
      exact hframe x k hk
  · obtain ⟨hhigh, hlow⟩ : hhalf (wsub (u j) r.2) = 0 ∧ lhalf (wsub (u j) r.2) + r.2 = u j := by
      rw [hhalf_eq, lhalf_eq]
      unfold wsub B at *
      omega
    rw [if_neg (not_not.mpr hhigh)]
    generalize lhalf (wsub (u j) r.2) = x at hlow ⊢
    have hleft : value B (update r.1 j x) j (n+1) + qhat * value B v 1 n = value B u j (n+1) := by
      rw [hvalueAt, hU]
      calc x * B^n + value B r.1 (j+1) n + qhat * value B v 1 n
          = x * B^n + (value B u (j+1) n + r.2 * B^n) := by rw [Nat.add_assoc, hvalue]
        _ = (x + r.2) * B^n + value B u (j+1) n := by ring
        _ = u j * B^n + value B u (j+1) n := by rw [hlow]
    have hexact : qhat = value B u j (n+1) / value B v 1 n :=
      Nat.le_antisymm ((Nat.le_div_iff_mul_le hpos).mpr (Nat.le_of_add_left_le (Nat.le_of_eq hleft))) henough
    refine ⟨hexact, ?_, update_lt hdigits (by omega), hframe x⟩
    dsimp only
    rw [hexact, Nat.mul_comm] at hleft
    omega

/-- The digits of the quotient come out one by one, and the remainder is left in the last digits. -/
theorem divideLoop_spec (left : ℕ) (hn : 2 ≤ n) (hu : ∀ k, u k < B) (hv : ∀ k, v k < B) (hq : ∀ k, q k < B) (hnormal : B ≤ 2 * v 1)
    (hless : value B u j n < value B v 1 n) :
    value B u j (n+left) = value B (divideLoop n v left j u q).2 j left * value B v 1 n +
      value B (divideLoop n v left j u q).1 (j+left) n ∧
    value B (divideLoop n v left j u q).1 (j+left) n < value B v 1 n ∧
    (∀ k, (divideLoop n v left j u q).1 k < B) ∧ (∀ k, (divideLoop n v left j u q).2 k < B) ∧
    (∀ k, j ≤ k → k < j+left → (divideLoop n v left j u q).1 k = 0) ∧
    ∀ k < j, (divideLoop n v left j u q).1 k = u k ∧ (divideLoop n v left j u q).2 k = q k := by
  induction left generalizing j u q with
  | zero =>
    refine ⟨?_, hless, hu, hq, fun k hk hlt => absurd hlt (Nat.not_lt_of_le hk), fun _ _ => ⟨rfl, rfl⟩⟩
    simp [value, divideLoop]
  | succ left ih =>
    obtain ⟨hdigit, hrem, hdigits, hother⟩ := divideStep_spec hn hu hv hnormal hless
    have hwindow := window_of hn hu hv hnormal hless
    unfold divideLoop
    generalize divideStep n v j u = r at hdigit hrem hdigits hother ⊢
    have hpos := hwindow.pos
    have hqdigit : lhalf r.1 = r.1 := by
      rw [lhalf_eq, hdigit]
      exact Nat.mod_eq_of_lt (Nat.div_lt_of_lt_mul (by rw [Nat.mul_comm]; exact hwindow.small))
    have hV : value B v 1 n < B^n := value_lt fun _ _ => hv _
    have hremlt := Nat.mod_lt (value B u j (n+1)) hpos
    -- What is left is smaller than the divisor and has no digit more than it.
    have htop : r.2 j = 0 := by
      rw [value_left] at hrem
      refine Nat.eq_zero_of_not_pos fun hne => ?_
      have hmul : B^n ≤ r.2 j * B^n := Nat.le_mul_of_pos_left _ hne
      omega
    have hleft : value B r.2 (j+1) n = value B u j (n+1) % value B v 1 n := by
      rw [← hrem, value_left, htop, Nat.zero_mul, Nat.zero_add]
    obtain ⟨hvalue, hless', hu', hq', hzero, hkept⟩ :=
      ih (j := j+1) (q := update q j (lhalf r.1)) hdigits (update_lt hq (lhalf_lt _)) (hleft ▸ hremlt)
    generalize divideLoop n v left (j+1) r.2 (update q j (lhalf r.1)) = out at hvalue hless' hu' hq' hzero hkept ⊢
    rw [show j+(left+1) = j+1+left by omega]
    refine ⟨?_, hless', hu', hq', fun k hk hlt => ?_, fun k hk => ?_⟩
    · have hrest : value B r.2 (j+1+n) left = value B u (j+(n+1)) left := by
        rw [show j+(n+1) = j+1+n by omega]
        exact value_congr fun i _ => hother _ (by omega)
      have hdivision := Nat.div_add_mod (value B u j (n+1)) (value B v 1 n)
      rw [value_append, hleft, hrest] at hvalue
      rw [show n+(left+1) = n+1+left by omega, value_append, value_left B out.2 j left, (hkept j (Nat.lt_succ_self j)).2,
        update_self, hqdigit, hdigit]
      calc value B u j (n+1) * B^left + value B u (j+(n+1)) left
          = (value B v 1 n * (value B u j (n+1) / value B v 1 n) + value B u j (n+1) % value B v 1 n) * B^left +
            value B u (j+(n+1)) left := by rw [hdivision]
        _ = value B u j (n+1) / value B v 1 n * B^left * value B v 1 n +
            (value B u j (n+1) % value B v 1 n * B^left + value B u (j+(n+1)) left) := by ring
        _ = (value B u j (n+1) / value B v 1 n * B^left + value B out.2 (j+1) left) * value B v 1 n +
            value B out.1 (j+1+left) n := by
          rw [hvalue]
          ring
    · by_cases hfirst : k = j
      · rw [hfirst, (hkept j (Nat.lt_succ_self j)).1, htop]
      · exact hzero k (by omega) hlt
    · rw [(hkept k (by omega)).1, (hkept k (by omega)).2, update_of_ne (by omega)]
      exact ⟨hother k (.inl hk), rfl⟩

/-! How many digits there are. -/

theorem divisorDigits_some (hn : 2 ≤ n) (h : divisorDigits v n k = some (i, s)) :
    i + s = n + k ∧ 2 ≤ i ∧ (∀ l, k < l → l ≤ s → v l = 0) ∧ v (s+1) ≠ 0 := by
  induction n generalizing k with
  | zero => exact absurd hn (by decide)
  | succ n ih =>
    unfold divisorDigits at h
    by_cases hzero : v (k+1) = 0
    · rw [if_pos hzero] at h
      by_cases hone : n = 1
      · rw [if_pos hone] at h
        cases h
      · rw [if_neg hone] at h
        obtain ⟨hsum, hi, hzeros, hfirst⟩ := ih (by omega) h
        refine ⟨by omega, hi, fun l hl hle => ?_, hfirst⟩
        by_cases hl' : l = k+1
        · rw [hl', hzero]
        · exact hzeros l (by omega) hle
    · rw [if_neg hzero] at h
      cases h
      exact ⟨rfl, hn, fun l hl hle => absurd hl (Nat.not_lt_of_le hle), hzero⟩

theorem divisorDigits_none (hn : 2 ≤ n) (h : divisorDigits v n k = none) : ∀ l, k < l → l < k+n → v l = 0 := by
  induction n generalizing k with
  | zero => exact absurd hn (by decide)
  | succ n ih =>
    unfold divisorDigits at h
    intro l hl hlt
    by_cases hzero : v (k+1) = 0
    · by_cases hl' : l = k+1
      · rw [hl', hzero]
      · rw [if_pos hzero] at h
        by_cases hone : n = 1
        · omega
        · rw [if_neg hone] at h
          exact ih (by omega) h l (by omega) (by omega)
    · rw [if_neg hzero] at h
      cases h

theorem dividendDigits_spec (hsome : ∃ l ≤ m, u (k+1+l) ≠ 0) :
    ∃ i s, dividendDigits u m k = some (i, s) ∧ i + s = m + k ∧ ∀ l, k < l → l ≤ s → u l = 0 := by
  induction m generalizing k with
  | zero =>
    obtain ⟨l, hl, hne⟩ := hsome
    obtain rfl := Nat.le_zero.mp hl
    refine ⟨0, k, ?_, rfl, fun l hl hle => absurd hl (Nat.not_lt_of_le hle)⟩
    exact if_neg hne
  | succ m ih =>
    unfold dividendDigits
    by_cases hzero : u (k+1) = 0
    · obtain ⟨l, hl, hne⟩ := hsome
      obtain ⟨l, rfl⟩ : ∃ l', l = l'+1 := Nat.exists_eq_succ_of_ne_zero (by
        rintro rfl
        exact hne hzero)
      obtain ⟨i, s, hi, hsum, hzeros⟩ := ih (k := k+1) ⟨l, by omega, by rwa [show k+1+1+l = k+1+(l+1) by omega]⟩
      rw [if_pos hzero]
      refine ⟨i, s, hi, by omega, fun l' hl' hle => ?_⟩
      by_cases heq : l' = k+1
      · rw [heq, hzero]
      · exact hzeros l' (by omega) hle
    · rw [if_neg hzero]
      exact ⟨m+1, k, rfl, rfl, fun l hl hle => absurd hl (Nat.not_lt_of_le hle)⟩

theorem shiftCount_spec (ht : t < B) (hfuel : B ≤ 2 * (t * 2^s)) :
    shiftCount s t ≤ s ∧ B ≤ 2 * (t * 2^(shiftCount s t)) ∧ t * 2^(shiftCount s t) < B := by
  induction s generalizing t with
  | zero => exact ⟨Nat.le_refl 0, hfuel, by rwa [shiftCount, pow_zero, Nat.mul_one]⟩
  | succ s ih =>
    unfold shiftCount
    by_cases hless : t < B/2
    · have hdouble : (t <<< 1) % 2^32 = 2*t := by
        rw [Nat.shiftLeft_eq]
        unfold B at ht
        omega
      obtain ⟨hle, hlarge, hsmall⟩ := ih (t := 2*t) (by unfold B at *; omega) (by
        rw [pow_succ] at hfuel
        calc B ≤ 2 * (t * (2^s * 2)) := hfuel
          _ = 2 * (2*t * 2^s) := by ring)
      rw [if_pos hless, hdouble, pow_succ, show t * (2^(shiftCount s (2*t)) * 2) = 2*t * 2^(shiftCount s (2*t)) by ring]
      exact ⟨Nat.succ_le_succ hle, hlarge, hsmall⟩
    · rw [if_neg hless, pow_zero, Nat.mul_one]
      exact ⟨Nat.zero_le _, by unfold B at *; omega, ht⟩

/-- The first digit of a divisor that has been shifted. -/
theorem normal_of (hp : ∀ k, p k < B) (hvalue : value B p 1 (n+1) = x * 2^d) (hlarge : B ≤ 2 * (t * 2^d)) (hx : t * B^n ≤ x) :
    B ≤ 2 * p 1 := by
  have hrest : value B p 2 n < B^n := value_lt fun _ _ => hp _
  have hless : t * 2^d * B^n < (p 1 + 1) * B^n := calc
    t * 2^d * B^n = t * B^n * 2^d := by ring
    _ ≤ x * 2^d := Nat.mul_le_mul_right _ hx
    _ = p 1 * B^n + value B p 2 n := by rw [← hvalue, value_left]
    _ < (p 1 + 1) * B^n := by
      rw [add_one_mul]
      exact Nat.add_lt_add_left hrest _
  have hle : t * 2^d ≤ p 1 := Nat.le_of_lt_succ (Nat.lt_of_mul_lt_mul_right hless)
  omega

/-! The whole division. -/

theorem longDivision_spec (hn : 2 ≤ n) (hu : ∀ k, u k < B) (hv : ∀ k, v k < B) (hzero : u 0 = 0) (hfirst : v 1 ≠ 0) :
    value B (longDivision n m u v).2 0 (m+1) = value B u 0 (m+n+1) / value B v 1 n ∧
    value B (longDivision n m u v).1 0 (m+n+1) = value B u 0 (m+n+1) % value B v 1 n ∧
    (∀ k, (longDivision n m u v).1 k < B) ∧ (∀ k, (longDivision n m u v).2 k < B) ∧ (longDivision n m u v).1 0 = 0 := by
  obtain ⟨n, rfl⟩ := Nat.exists_eq_add_of_le' hn
  have hv1 : 0 < v 1 := Nat.pos_of_ne_zero hfirst
  obtain ⟨hd, hlarge, hsmall⟩ := shiftCount_spec (t := v 1) (s := 16) (hv 1) (by unfold B; omega)
  unfold longDivision
  dsimp only
  rw [show HALF_BITS = 16 from rfl]
  generalize shiftCount 16 (v 1) = d at hd hlarge hsmall ⊢
  obtain ⟨hu', hU, -⟩ := shifted_spec (m+(n+2)) 0 hu hd
  obtain ⟨hv', hV, -⟩ := shifted_spec (n+2-1) 1 hv hd
  generalize (if 0 < d then shl d (m+(n+2)) 0 u else u) = u' at hu' hU ⊢
  generalize (if 0 < d then shl d (n+2-1) 1 v else v) = v' at hv' hV ⊢
  rw [hzero, Nat.zero_mul, Nat.zero_div, Nat.zero_mul, Nat.zero_add] at hU
  rw [Nat.div_eq_of_lt hsmall, Nat.zero_mul, Nat.zero_add, show n+2-1+1 = n+2 from rfl] at hV
  have hdivisor : B^(n+1) ≤ value B v 1 (n+2) := value_ge hfirst
  have hnormal : B ≤ 2 * v' 1 := by
    refine normal_of hv' hV hlarge ?_
    rw [value_left]
    exact Nat.le_add_right _ _
  -- The first digits of the dividend are fewer than those of the divisor.
  have hless : value B u' 0 (n+2) < value B v' 1 (n+2) := by
    have hdividend : value B u 0 (m+(n+2)+1) < B^(m+(n+2)) := by
      rw [value_left, hzero, Nat.zero_mul, Nat.zero_add]
      exact value_lt fun _ _ => hu _
    have hmul : value B u' 0 (n+2) * B^(m+1) < B^(n+1) * 2^d * B^(m+1) := calc
      value B u' 0 (n+2) * B^(m+1) ≤ value B u' 0 (n+2+(m+1)) := by
        rw [value_append B u' 0 (n+2) (m+1)]
        exact Nat.le_add_right _ _
      _ = value B u' 0 (m+(n+2)+1) := by rw [show n+2+(m+1) = m+(n+2)+1 by omega]
      _ = value B u 0 (m+(n+2)+1) * 2^d := hU
      _ < B^(m+(n+2)) * 2^d := Nat.mul_lt_mul_of_pos_right hdividend (Nat.two_pow_pos d)
      _ = B^(n+1) * 2^d * B^(m+1) := by ring
    calc value B u' 0 (n+2) < B^(n+1) * 2^d := Nat.lt_of_mul_lt_mul_right hmul
      _ ≤ value B v 1 (n+2) * 2^d := Nat.mul_le_mul_right _ hdivisor
      _ = value B v' 1 (n+2) := hV.symm
  obtain ⟨hvalue, hrem, hdigits, hquotient, hzeros, -⟩ :=
    divideLoop_spec (m+1) (q := fun _ => 0) hn hu' hv' (fun _ => by decide) hnormal hless
  generalize divideLoop (n+2) v' (m+1) 0 u' (fun _ => 0) = r at hvalue hrem hdigits hquotient hzeros ⊢
  rw [show n+2+(m+1) = m+(n+2)+1 by omega, hU, hV, Nat.zero_add] at hvalue
  rw [hV, Nat.zero_add] at hrem
  obtain ⟨hquot, hmod⟩ := (Nat.div_mod_unique (Nat.zero_lt_of_lt hrem)).mpr
    ⟨(by rw [hvalue]; ring : value B r.1 (m+1) (n+2) + value B v 1 (n+2) * 2^d * value B r.2 0 (m+1) = value B u 0 (m+(n+2)+1) * 2^d), hrem⟩
  rw [Nat.mul_div_mul_right _ _ (Nat.two_pow_pos d)] at hquot
  rw [Nat.mul_mod_mul_right] at hmod
  obtain ⟨hback, hremainder, hnone⟩ := shiftedBack_spec (m := m) (n+2) hdigits hd fun k hk => hzeros k (Nat.zero_le k) (by omega)
  generalize (if d ≠ 0 then unshift d m (n+2) r.1 else r.1) = w at hback hremainder hnone ⊢
  refine ⟨hquot.symm, ?_, hback, hquotient, hnone 0 (Nat.zero_le m)⟩
  rw [← hmod, Nat.mul_div_cancel _ (Nat.two_pow_pos d)] at hremainder
  rw [show m+(n+2)+1 = m+1+(n+2) by omega, value_append, value_zeros fun i hi => hnone _ (by omega), Nat.zero_mul, Nat.zero_add,
    Nat.zero_add, hremainder]
  rw [show m+1+(n+2) = m+(n+2)+1 by omega]

/-- A row of five digits that begins with zeros. -/
theorem overlay_value (hk : k ≤ 4) (hp : ∀ i < k, p i = 0) (hp' : p' 0 = 0 ∨ 0 < k) :
    value B (overlay k p p') 1 4 = value B p' 0 (4-k+1) := by
  have hfirst : overlay k p p' 0 = 0 := by
    unfold overlay
    split
    · exact hp 0 ‹_›
    · simpa [show k = 0 by omega] using hp'
  have hall : value B (overlay k p p') 0 5 = value B (overlay k p p') 1 4 := by
    rw [value_left, hfirst, Nat.zero_mul, Nat.zero_add]
  rw [← hall, show (5 : ℕ) = k + (4-k+1) by omega, value_append, value_zeros fun i hi => ?_, Nat.zero_mul, Nat.zero_add]
  · refine value_congr fun i _ => ?_
    unfold overlay
    rw [if_neg (by omega)]
    congr 1
    omega
  · unfold overlay
    rw [if_pos (by omega)]
    exact hp _ (by omega)

theorem overlay_lt (hp : ∀ i, p i < B) (hp' : ∀ i, p' i < B) : ∀ i, overlay k p p' i < B := by
  intro i
  unfold overlay
  split
  · exact hp i
  · exact hp' _

/-- A digit of a short division. -/
theorem shortDigit (hu : ∀ k, u k < B) (ht : 0 < t) (htB : t < B) :
    combine (value B u 1 k % t) (u (1+k)) % t = value B u 1 (k+1) % t ∧
    value B u 1 k / t * B + lhalf (combine (value B u 1 k % t) (u (1+k)) / t) = value B u 1 (k+1) / t := by
  have hrem : value B u 1 k % t < t := Nat.mod_lt _ ht
  rw [combine_eq (Nat.lt_trans hrem htB) (hu _), lhalf_eq, value_mod, value_div B u 1 k ht]
  generalize value B u 1 k % t = r at hrem ⊢
  have hdigit : (r*B + u (1+k)) / t < B := Nat.div_lt_of_lt_mul (calc
    r*B + u (1+k) < r*B + B := Nat.add_lt_add_left (hu _) _
    _ = (r+1)*B := (add_one_mul r B).symm
    _ ≤ t*B := Nat.mul_le_mul_right B hrem)
  exact ⟨rfl, by rw [Nat.mod_eq_of_lt hdigit]⟩

theorem shortDivision_spec (hu : ∀ k, u k < B) (ht : 0 < t) (htB : t < B) :
    shortDivision u t = (value B u 1 4 / t, value B u 1 4 % t) := by
  have hfirst : value B u 1 1 = u 1 := by simp [value]
  have hq₁ : lhalf (u 1 / t) = value B u 1 1 / t := by
    rw [hfirst, lhalf_eq]
    exact Nat.mod_eq_of_lt (Nat.lt_of_le_of_lt (Nat.div_le_self _ _) (hu 1))
  obtain ⟨hr₂, hq₂⟩ := shortDigit (k := 1) hu ht htB
  obtain ⟨hr₃, hq₃⟩ := shortDigit (k := 2) hu ht htB
  obtain ⟨hr₄, hq₄⟩ := shortDigit (k := 3) hu ht htB
  unfold shortDivision
  dsimp only
  rw [combine_eq (lhalf_lt _) (lhalf_lt _), combine_eq (lhalf_lt _) (lhalf_lt _), hq₁, ← hfirst]
  simp only [Nat.reduceAdd] at hr₂ hq₂ hr₃ hq₃ hr₄ hq₄
  rw [hr₂, hr₃, hr₄, ← hq₄, ← hq₃, ← hq₂]
  refine Prod.ext ?_ rfl
  unfold B
  ring

/-- Digits that have been skipped stand for nothing. -/
theorem value_skipped (hzeros : ∀ l, 0 < l → l ≤ k → p l = 0) (hsum : n + k = 4) :
    value B (fun i => p (k+i)) 1 n = value B p 1 4 := by
  rw [show (4 : ℕ) = k+n by omega, value_append B p 1 k n, value_zeros fun i hi => hzeros _ (by omega) (by omega), Nat.zero_mul, Nat.zero_add]
  exact value_congr fun i _ => congrArg p (by omega)

/-- The quotient and the remainder are right for all numbers of 64 bits. -/
theorem qdivrem_divides (hU : U < 2^64) (hV : V < 2^64) : qdivrem U V = if V = 0 then none else some (U / V, U % V) := by
  have hu := digits_lt hU
  have hv := digits_lt hV
  unfold qdivrem
  by_cases hzero : V = 0
  · rw [if_pos hzero, if_pos hzero]
  rw [if_neg hzero, if_neg hzero]
  by_cases hless : U < V
  · rw [if_pos hless, Nat.div_eq_of_lt hless, Nat.mod_eq_of_lt hless]
  rw [if_neg hless]
  have hdividend := digits_value U
  have hdivisor := digits_value V
  cases hn : divisorDigits (digits V) 4 0 with
  | none =>
    have hzeros := divisorDigits_none (by decide) hn
    have hlast : digits V 4 = V := by
      rw [value, value_zeros fun i hi => hzeros _ (by omega) (by omega), Nat.zero_mul, Nat.zero_add] at hdivisor
      exact hdivisor
    have hsmall := hv 4
    rw [hlast] at hsmall
    dsimp only
    rw [hlast, shortDivision_spec hu (Nat.pos_of_ne_zero hzero) hsmall, hdividend]
  | some r =>
    obtain ⟨n, vskip⟩ := r
    obtain ⟨hsum, hn2, hzeros, hfirst⟩ := divisorDigits_some (by decide) hn
    rw [Nat.add_zero] at hsum
    have hV' : value B (fun i => digits V (vskip+i)) 1 n = V := (value_skipped hzeros hsum).trans hdivisor
    -- The dividend is not less than the divisor, so it has at least as many digits.
    have hsome : ∃ l ≤ 4-n, digits U (0+1+l) ≠ 0 := by
      by_contra hnone
      push Not at hnone
      have hlow : U < B^(n-1) := by
        rw [← hdividend, show (4 : ℕ) = 4-n+1+(n-1) by omega, value_append,
          value_zeros fun i hi => by simpa using hnone i (by omega), Nat.zero_mul, Nat.zero_add]
        exact value_lt fun _ _ => hu _
      have hhigh : B^(n-1) ≤ V := by
        rw [← hV', show n = n-1+1 by omega]
        exact value_ge hfirst
      omega
    obtain ⟨m, uskip, hm, hsum', hzeros'⟩ := dividendDigits_spec hsome
    rw [Nat.add_zero] at hsum'
    dsimp only
    rw [hm]
    dsimp only
    have hskipped : ∀ i < uskip+1, digits U i = 0 := by
      intro i hi
      obtain rfl | hpos := Nat.eq_zero_or_pos i
      · rfl
      · exact hzeros' i hpos (by omega)
    have hU' : value B (fun i => digits U (uskip+i)) 0 (m+n+1) = U := by
      rw [value_left, hskipped (uskip+0) (by omega), Nat.zero_mul, Nat.zero_add]
      exact (value_skipped hzeros' (by omega)).trans hdividend
    obtain ⟨hquot, hrem, hremdigits, hquotdigits, hhead⟩ :=
      longDivision_spec (m := m) (u := fun i => digits U (uskip+i)) (v := fun i => digits V (vskip+i)) hn2 (fun _ => hu _) (fun _ => hv _)
        (hskipped _ (by omega)) hfirst
    generalize longDivision n m (fun i => digits U (uskip+i)) (fun i => digits V (vskip+i)) = r at hquot hrem hremdigits hquotdigits hhead ⊢
    rw [hU', hV'] at hquot hrem
    rw [whole_value (overlay_lt (fun _ => by decide) hquotdigits), whole_value (overlay_lt hu hremdigits),
      overlay_value (Nat.sub_le 4 m) (fun _ _ => rfl) (.inr (by omega)), overlay_value (by omega) (fun i hi => hskipped i (by omega)) (.inl hhead),
      show 4-(4-m)+1 = m+1 by omega, show 4-uskip+1 = m+n+1 by omega, hquot, hrem]

end OS161.Longlong
