import Mathlib.Data.BitVec
import OS161.Longlong

/-!
# Arithmetic with 64 bits

The compiler makes calls of the arithmetic with numbers of 64 bits. A product is put
together from three products of halves instead of four, at first of words and then of
the digits of a word. Quotients are those of the absolute values, with a sign.
-/

set_option autoImplicit false

namespace OS161.Longlong

/-! The words of `union uu`. -/

def uiH (x : ℕ) : ℕ := x / 2^32

def uiL (x : ℕ) : ℕ := x % 2^32

def lhup (x : ℕ) : ℕ := (x <<< HALF_BITS) % 2^32

/-- The high word with its sign. -/
def siH (a : BitVec 64) : ℤ := (a.extractLsb' 32 32).toInt

def adddi3 (a b : BitVec 64) : BitVec 64 :=
  let sumL := (uiL a.toNat + uiL b.toNat) % 2^32
  BitVec.ofNat 64 ((uiH a.toNat + uiH b.toNat + if sumL < uiL b.toNat then 1 else 0) % 2^32 * 2^32 + sumL)

def subdi3 (a b : BitVec 64) : BitVec 64 :=
  let diffL := wsub (uiL a.toNat) (uiL b.toNat)
  BitVec.ofNat 64 (wsub (wsub (uiH a.toNat) (uiH b.toNat)) (if uiL a.toNat < diffL then 1 else 0) * 2^32 + diffL)

def negdi2 (a : BitVec 64) : BitVec 64 :=
  let resL := wsub 0 (uiL a.toNat)
  BitVec.ofNat 64 (wsub (wsub 0 (uiH a.toNat)) (if 0 < resL then 1 else 0) * 2^32 + resL)

/-- 0, 1 or 2, as the first one is less, the same or greater. -/
def cmpdi2 (a b : BitVec 64) : ℕ :=
  if siH a < siH b then 0 else if siH b < siH a then 2
  else if uiL a.toNat < uiL b.toNat then 0 else if uiL b.toNat < uiL a.toNat then 2 else 1

def ucmpdi2 (a b : BitVec 64) : ℕ :=
  if uiH a.toNat < uiH b.toNat then 0 else if uiH b.toNat < uiH a.toNat then 2
  else if uiL a.toNat < uiL b.toNat then 0 else if uiL b.toNat < uiL a.toNat then 2 else 1

def ashldi3 (a : BitVec 64) (shift : ℕ) : BitVec 64 :=
  let aH := a.extractLsb' 32 32
  let aL := a.extractLsb' 0 32
  if shift = 0 then a
  else if 32 ≤ shift then aL <<< (shift-32) ++ 0#32
  else (aH <<< shift ||| aL >>> (32-shift)) ++ aL <<< shift

def lshldi3 (a : BitVec 64) (shift : ℕ) : BitVec 64 := ashldi3 a shift

def lshrdi3 (a : BitVec 64) (shift : ℕ) : BitVec 64 :=
  let aH := a.extractLsb' 32 32
  let aL := a.extractLsb' 0 32
  if shift = 0 then a
  else if 32 ≤ shift then 0#32 ++ aH >>> (shift-32)
  else aH >>> shift ++ (aL >>> shift ||| aH <<< (32-shift))

def ashrdi3 (a : BitVec 64) (shift : ℕ) : BitVec 64 :=
  let aH := a.extractLsb' 32 32
  let aL := a.extractLsb' 0 32
  if shift = 0 then a
  else if 32 ≤ shift then (aH.sshiftRight 31).sshiftRight 1 ++ aH.sshiftRight (shift-32)
  else aH.sshiftRight shift ++ (aL >>> shift ||| aH <<< (32-shift))

/-- A difference without its sign, and whether it is negative. -/
def difference (x y : ℕ) : ℕ × Bool := if y ≤ x then (x-y, false) else (y-x, true)

/-- `prod += x << N`. -/
def addShifted (prod : ℕ × ℕ) (x : ℕ) : ℕ × ℕ :=
  let was := prod.2
  let prodl := (prod.2 + lhup x) % 2^32
  ((prod.1 + (hhalf x + if prodl < was then 1 else 0)) % 2^32, prodl)

/-- `prod -= x << N`. -/
def subShifted (prod : ℕ × ℕ) (x : ℕ) : ℕ × ℕ :=
  let was := prod.2
  let prodl := wsub prod.2 (lhup x)
  (wsub prod.1 (hhalf x + if was < prodl then 1 else 0), prodl)

/-- `... + low`. -/
def addLow (prod : ℕ × ℕ) (low : ℕ) : ℕ × ℕ :=
  let prodl := (prod.2 + low) % 2^32
  (if prodl < low then (prod.1 + 1) % 2^32 else prod.1, prodl)

/-- `__lmulq`. -/
def lmulq (u v : ℕ) : ℕ :=
  let u₁ := hhalf u
  let u₀ := lhalf u
  let v₁ := hhalf v
  let v₀ := lhalf v
  let low := u₀ * v₀
  if u₁ = 0 ∧ v₁ = 0 then low
  else
    let udiff := difference u₁ u₀
    let vdiff := difference v₀ v₁
    let mid := udiff.1 * vdiff.1
    let high := u₁ * v₁
    let prod := ((high + hhalf high) % 2^32, lhup high)
    let prod := if udiff.2 ^^ vdiff.2 then subShifted prod mid else addShifted prod mid
    let prod := addLow (addShifted prod low) low
    prod.1 * 2^32 + prod.2

/-- `__muldi3` of numbers that are not negative. -/
def mulWords (u v : ℕ) : ℕ :=
  if uiH u = 0 ∧ uiH v = 0 then lmulq (uiL u) (uiL v)
  else
    let low := lmulq (uiL u) (uiL v)
    let udiff := difference (uiH u) (uiL u)
    let vdiff := difference (uiL v) (uiH v)
    let mid := (udiff.1 * vdiff.1) % 2^32
    let high := (uiH u * uiH v) % 2^32
    (high + (if udiff.2 ^^ vdiff.2 then wsub 0 mid else mid) + uiL low + uiH low) % 2^32 * 2^32 + uiL low

def magnitude (a : BitVec 64) : BitVec 64 := if a.slt 0 then -a else a

def withSign (neg : Bool) (a : BitVec 64) : BitVec 64 := if neg then -a else a

def muldi3 (a b : BitVec 64) : BitVec 64 :=
  withSign (a.slt 0 ^^ b.slt 0) (BitVec.ofNat 64 (mulWords (magnitude a).toNat (magnitude b).toNat))

def udivdi3 (a b : BitVec 64) : Option (BitVec 64) := (qdivrem a.toNat b.toNat).map fun r => BitVec.ofNat 64 r.1

def umoddi3 (a b : BitVec 64) : Option (BitVec 64) := (qdivrem a.toNat b.toNat).map fun r => BitVec.ofNat 64 r.2

def divdi3 (a b : BitVec 64) : Option (BitVec 64) :=
  (udivdi3 (magnitude a) (magnitude b)).map (withSign (a.slt 0 ^^ b.slt 0))

def moddi3 (a b : BitVec 64) : Option (BitVec 64) := (umoddi3 (magnitude a) (magnitude b)).map (withSign (a.slt 0))

variable {a b : BitVec 64} {h l low u v x : ℕ} {prod : ℕ × ℕ}

/-! Words apart. -/

theorem adddi3_eq (a b : BitVec 64) : adddi3 a b = a + b := by
  have ha := a.isLt
  have hb := b.isLt
  apply BitVec.eq_of_toNat_eq
  unfold adddi3 uiL uiH
  rw [BitVec.toNat_ofNat, BitVec.toNat_add]
  split <;> omega

theorem subdi3_eq (a b : BitVec 64) : subdi3 a b = a - b := by
  have ha := a.isLt
  have hb := b.isLt
  apply BitVec.eq_of_toNat_eq
  unfold subdi3 uiL uiH wsub
  rw [BitVec.toNat_ofNat, BitVec.toNat_sub]
  split <;> omega

theorem negdi2_eq (a : BitVec 64) : negdi2 a = -a := by
  have ha := a.isLt
  apply BitVec.eq_of_toNat_eq
  unfold negdi2 uiL uiH wsub
  rw [BitVec.toNat_ofNat, BitVec.toNat_neg]
  split <;> omega

theorem ucmpdi2_eq (a b : BitVec 64) : ucmpdi2 a b = if a.ult b then 0 else if b.ult a then 2 else 1 := by
  have ha : uiH a.toNat * 2^32 + uiL a.toNat = a.toNat := Nat.div_add_mod' _ _
  have hb : uiH b.toNat * 2^32 + uiL b.toNat = b.toNat := Nat.div_add_mod' _ _
  have hlt : ∀ x, uiL x < 2^32 := fun x => Nat.mod_lt x (by decide)
  have hla := hlt a.toNat
  have hlb := hlt b.toNat
  simp only [ucmpdi2, BitVec.ult_iff_lt, BitVec.lt_def]
  split_ifs <;> first | rfl | omega

theorem siH_eq (a : BitVec 64) : siH a * 2^32 + uiL a.toNat = a.toInt := by
  have ha := a.isLt
  unfold siH uiL
  rw [BitVec.toInt_eq_toNat_cond, BitVec.toInt_eq_toNat_cond, BitVec.extractLsb'_toNat, Nat.shiftRight_eq_div_pow]
  split <;> split <;> omega

theorem cmpdi2_eq (a b : BitVec 64) : cmpdi2 a b = if a.slt b then 0 else if b.slt a then 2 else 1 := by
  have ha := siH_eq a
  have hb := siH_eq b
  have hlt : ∀ x, uiL x < 2^32 := fun x => Nat.mod_lt x (by decide)
  have hla := hlt a.toNat
  have hlb := hlt b.toNat
  simp only [cmpdi2, BitVec.slt_iff_toInt_lt]
  split_ifs <;> first | rfl | omega

theorem ashldi3_eq (a : BitVec 64) (shift : ℕ) : ashldi3 a shift = a <<< shift := by
  unfold ashldi3
  dsimp only
  split
  · simp [*]
  · split
    all_goals
      ext i hi
      simp
      grind

theorem lshrdi3_eq (a : BitVec 64) (shift : ℕ) : lshrdi3 a shift = a >>> shift := by
  unfold lshrdi3
  dsimp only
  split
  · simp [*]
  · split
    all_goals
      ext i hi
      simp
      grind

theorem ashrdi3_eq (a : BitVec 64) (shift : ℕ) : ashrdi3 a shift = a.sshiftRight shift := by
  unfold ashrdi3
  dsimp only
  split
  · simp [*]
  · split
    all_goals
      ext i hi
      simp [BitVec.getElem_sshiftRight]
      grind

/-! Two words as one number. -/

def joined (prod : ℕ × ℕ) : ℕ := prod.1 * 2^32 + prod.2

theorem lhup_eq (x : ℕ) : lhup x = x * 2^16 % 2^32 := by
  unfold lhup HALF_BITS
  rw [Nat.shiftLeft_eq]

theorem addShifted_joined (hprod : prod.2 < 2^32) :
    joined (addShifted prod x) = (joined prod + x * 2^16) % 2^64 := by
  unfold addShifted joined
  dsimp only
  rw [lhup_eq, hhalf_eq]
  unfold B
  split <;> omega

theorem subShifted_joined (hprod : prod.2 < 2^32) (hx : x < 2^32) :
    joined (subShifted prod x) = (joined prod + 2^64 - x * 2^16) % 2^64 := by
  unfold subShifted joined wsub
  dsimp only
  rw [lhup_eq, hhalf_eq]
  unfold B
  split <;> omega

theorem addLow_joined (hprod : prod.1 < 2^32 ∧ prod.2 < 2^32) (hlow : low < 2^32) :
    joined (addLow prod low) = (joined prod + low) % 2^64 := by
  unfold addLow joined
  dsimp only
  split <;> omega

theorem addShifted_lt (prod : ℕ × ℕ) (x : ℕ) : (addShifted prod x).1 < 2^32 ∧ (addShifted prod x).2 < 2^32 :=
  ⟨Nat.mod_lt _ (by decide), Nat.mod_lt _ (by decide)⟩

theorem subShifted_lt (prod : ℕ × ℕ) (x : ℕ) : (subShifted prod x).2 < 2^32 := Nat.mod_lt _ (by decide)

/-! Products. -/

theorem difference_lt {w : ℕ} (hu : u < w) (hv : v < w) : (difference u v).1 < w := by
  unfold difference
  split
  · exact Nat.lt_of_le_of_lt (Nat.sub_le u v) hu
  · exact Nat.lt_of_le_of_lt (Nat.sub_le v u) hv

theorem difference_int (x y : ℕ) : (x : ℤ) - y = if (difference x y).2 then -((difference x y).1 : ℤ) else (difference x y).1 := by
  unfold difference
  by_cases hle : y ≤ x
  · simp [hle]
  · simp only [hle, if_false, if_true]
    omega

/-- The products of unlike halves from those of like halves. -/
theorem unlike_halves (u₁ u₀ v₁ v₀ : ℕ) :
    if (difference u₁ u₀).2 ^^ (difference v₀ v₁).2 then
      u₁*v₀ + u₀*v₁ + (difference u₁ u₀).1 * (difference v₀ v₁).1 = u₁*v₁ + u₀*v₀
    else u₁*v₀ + u₀*v₁ = u₁*v₁ + u₀*v₀ + (difference u₁ u₀).1 * (difference v₀ v₁).1 := by
  have hu := difference_int u₁ u₀
  have hv := difference_int v₀ v₁
  have hproduct := congrArg₂ (· * ·) hu hv
  generalize difference u₁ u₀ = udiff at hproduct ⊢
  generalize difference v₀ v₁ = vdiff at hproduct ⊢
  obtain ⟨udiff, uneg⟩ := udiff
  obtain ⟨vdiff, vneg⟩ := vdiff
  cases uneg <;> cases vneg <;> simp at hproduct ⊢
  all_goals
    zify
    linarith

theorem bounded_mul {x y : ℕ} (hx : x < B) (hy : y < B) : x * y ≤ (2^16-1) * (2^16-1) :=
  Nat.mul_le_mul (Nat.le_sub_one_of_lt hx) (Nat.le_sub_one_of_lt hy)

/-- The three products put together, where the middle one is subtracted. -/
theorem assembled_sub {high mid low cross : ℕ} (hmid : mid < 2^32) (hsum : cross + mid = high + low) :
    (((high * 2^32 + high * 2^16 + 2^64 - mid * 2^16) % 2^64 + low * 2^16) % 2^64 + low) % 2^64 =
      (high * 2^32 + cross * 2^16 + low) % 2^64 := by
  omega

theorem assembled_add {high mid low cross : ℕ} (hsum : cross = high + low + mid) :
    (((high * 2^32 + high * 2^16 + mid * 2^16) % 2^64 + low * 2^16) % 2^64 + low) % 2^64 =
      (high * 2^32 + cross * 2^16 + low) % 2^64 := by
  omega

theorem lmulq_eq (hu : u < 2^32) (hv : v < 2^32) : lmulq u v = u * v := by
  have hu₁ : hhalf u < 2^16 := by
    rw [hhalf_eq]
    unfold B
    omega
  have hv₁ : hhalf v < 2^16 := by
    rw [hhalf_eq]
    unfold B
    omega
  have hsplitu : u = hhalf u * 2^16 + lhalf u := by
    rw [hhalf_eq, lhalf_eq]
    unfold B
    omega
  have hsplitv : v = hhalf v * 2^16 + lhalf v := by
    rw [hhalf_eq, lhalf_eq]
    unfold B
    omega
  have hunlike := unlike_halves (hhalf u) (lhalf u) (hhalf v) (lhalf v)
  have hmid := bounded_mul (difference_lt hu₁ (lhalf_lt u)) (difference_lt (lhalf_lt v) hv₁)
  have hlow := bounded_mul (lhalf_lt u) (lhalf_lt v)
  have hhigh := bounded_mul hu₁ hv₁
  have hproduct : u * v = hhalf u * hhalf v * 2^32 + (hhalf u * lhalf v + lhalf u * hhalf v) * 2^16 + lhalf u * lhalf v := calc
    u * v = (hhalf u * 2^16 + lhalf u) * (hhalf v * 2^16 + lhalf v) := by rw [← hsplitu, ← hsplitv]
    _ = _ := by ring
  have hless : u * v < 2^64 := calc
    u * v < 2^32 * 2^32 := Nat.mul_lt_mul'' hu hv
    _ = 2^64 := by norm_num
  unfold lmulq
  dsimp only
  by_cases hsmall : hhalf u = 0 ∧ hhalf v = 0
  · rw [if_pos hsmall, hproduct, hsmall.1, hsmall.2]
    simp
  · rw [if_neg hsmall]
    generalize (difference (hhalf u) (lhalf u)).1 * (difference (lhalf v) (hhalf v)).1 = mid at hunlike hmid ⊢
    generalize hhalf u * hhalf v = high at hunlike hhigh hproduct ⊢
    generalize lhalf u * lhalf v = low at hunlike hlow hproduct ⊢
    generalize hhalf u * lhalf v + lhalf u * hhalf v = cross at hunlike hproduct
    have hmid' : mid < 2^32 := Nat.lt_of_le_of_lt hmid (by norm_num)
    have hlow' : low < 2^32 := Nat.lt_of_le_of_lt hlow (by norm_num)
    have hfirst : joined ((high + hhalf high) % 2^32, lhup high) = high * 2^32 + high * 2^16 := by
      unfold joined
      rw [lhup_eq, hhalf_eq]
      unfold B
      omega
    have hlt : ((high + hhalf high) % 2^32, lhup high).2 < 2^32 := Nat.mod_lt _ (by decide)
    change joined _ = u * v
    generalize ((high + hhalf high) % 2^32, lhup high) = prod at hfirst hlt ⊢
    rw [addLow_joined (addShifted_lt _ _) hlow', ← Nat.mod_eq_of_lt hless, hproduct]
    by_cases hneg : ((difference (hhalf u) (lhalf u)).2 ^^ (difference (lhalf v) (hhalf v)).2) = true
    · rw [if_pos hneg] at hunlike
      rw [if_pos hneg, addShifted_joined (subShifted_lt _ _), subShifted_joined hlt hmid', hfirst]
      exact assembled_sub hmid' hunlike
    · rw [if_neg hneg] at hunlike
      rw [if_neg hneg, addShifted_joined (addShifted_lt _ _).2, addShifted_joined hlt, hfirst]
      exact assembled_add hunlike

theorem mulWords_eq (u v : ℕ) : mulWords u v = u * v % 2^64 := by
  have hsplitu : u = uiH u * 2^32 + uiL u := (Nat.div_add_mod' u (2^32)).symm
  have hsplitv : v = uiH v * 2^32 + uiL v := (Nat.div_add_mod' v (2^32)).symm
  have hlt : ∀ x, uiL x < 2^32 := fun x => Nat.mod_lt x (by decide)
  have hunlike := unlike_halves (uiH u) (uiL u) (uiH v) (uiL v)
  have hproduct : u * v = uiH u * uiH v * 2^64 + (uiH u * uiL v + uiL u * uiH v) * 2^32 + uiL u * uiL v := calc
    u * v = (uiH u * 2^32 + uiL u) * (uiH v * 2^32 + uiL v) := by rw [← hsplitu, ← hsplitv]
    _ = _ := by ring
  have hlow : uiL u * uiL v < 2^64 := calc
    uiL u * uiL v < 2^32 * 2^32 := Nat.mul_lt_mul'' (hlt u) (hlt v)
    _ = 2^64 := by norm_num
  unfold mulWords
  dsimp only
  rw [lmulq_eq (hlt u) (hlt v)]
  by_cases hsmall : uiH u = 0 ∧ uiH v = 0
  · rw [if_pos hsmall, hproduct, hsmall.1, hsmall.2]
    simpa using (Nat.mod_eq_of_lt hlow).symm
  · rw [if_neg hsmall, hproduct]
    generalize (difference (uiH u) (uiL u)).1 * (difference (uiL v) (uiH v)).1 = mid at hunlike ⊢
    generalize uiH u * uiH v = high at hunlike ⊢
    generalize uiL u * uiL v = low at hunlike hlow ⊢
    generalize uiH u * uiL v + uiL u * uiH v = cross at hunlike ⊢
    by_cases hneg : ((difference (uiH u) (uiL u)).2 ^^ (difference (uiL v) (uiH v)).2) = true
    · rw [if_pos hneg] at hunlike
      rw [if_pos hneg]
      unfold uiH uiL wsub
      omega
    · rw [if_neg hneg] at hunlike
      rw [if_neg hneg]
      unfold uiH uiL
      omega

theorem muldi3_eq (a b : BitVec 64) : muldi3 a b = a * b := by
  have hproduct : BitVec.ofNat 64 (mulWords (magnitude a).toNat (magnitude b).toNat) = magnitude a * magnitude b := by
    rw [mulWords_eq]
    apply BitVec.eq_of_toNat_eq
    simp
  unfold muldi3
  rw [hproduct]
  unfold withSign magnitude
  cases a.slt 0 <;> cases b.slt 0 <;> simp

/-! Quotients. -/

theorem qdivrem_words (a b : BitVec 64) :
    qdivrem a.toNat b.toNat = if b = 0 then none else some ((a / b).toNat, (a % b).toNat) := by
  rw [qdivrem_divides a.isLt b.isLt]
  by_cases hb : b = 0
  · rw [hb]
    rfl
  · have hb' : b.toNat ≠ 0 := fun h => hb (BitVec.eq_of_toNat_eq h)
    rw [if_neg hb, if_neg hb', BitVec.toNat_udiv, BitVec.toNat_umod]

theorem udivdi3_eq (a b : BitVec 64) : udivdi3 a b = if b = 0 then none else some (a / b) := by
  unfold udivdi3
  rw [qdivrem_words]
  by_cases hb : b = 0
  · rw [if_pos hb, if_pos hb]
    rfl
  · rw [if_neg hb, if_neg hb, Option.map_some, BitVec.ofNat_toNat, BitVec.setWidth_eq]

theorem umoddi3_eq (a b : BitVec 64) : umoddi3 a b = if b = 0 then none else some (a % b) := by
  unfold umoddi3
  rw [qdivrem_words]
  by_cases hb : b = 0
  · rw [if_pos hb, if_pos hb]
    rfl
  · rw [if_neg hb, if_neg hb, Option.map_some, BitVec.ofNat_toNat, BitVec.setWidth_eq]

theorem magnitude_zero : magnitude b = 0 ↔ b = 0 := by
  unfold magnitude
  split
  · exact BitVec.neg_eq_zero_iff
  · rfl

theorem divdi3_eq (a b : BitVec 64) : divdi3 a b = if b = 0 then none else some (a.sdiv b) := by
  unfold divdi3
  rw [udivdi3_eq]
  by_cases hb : b = 0
  · rw [if_pos hb, if_pos (magnitude_zero.mpr hb)]
    rfl
  · rw [if_neg hb, if_neg (mt magnitude_zero.mp hb), Option.map_some, BitVec.sdiv_eq]
    have hsigna : a.slt 0 = a.msb := BitVec.slt_zero_eq_msb
    have hsignb : b.slt 0 = b.msb := BitVec.slt_zero_eq_msb
    unfold withSign magnitude
    rw [hsigna, hsignb]
    cases a.msb <;> cases b.msb <;> rfl

theorem moddi3_eq (a b : BitVec 64) : moddi3 a b = if b = 0 then none else some (a.srem b) := by
  unfold moddi3
  rw [umoddi3_eq]
  by_cases hb : b = 0
  · rw [if_pos hb, if_pos (magnitude_zero.mpr hb)]
    rfl
  · rw [if_neg hb, if_neg (mt magnitude_zero.mp hb), Option.map_some, BitVec.srem_eq]
    have hsigna : a.slt 0 = a.msb := BitVec.slt_zero_eq_msb
    have hsignb : b.slt 0 = b.msb := BitVec.slt_zero_eq_msb
    unfold withSign magnitude
    rw [hsigna, hsignb]
    cases a.msb <;> cases b.msb <;> rfl

/-- The quotients and remainders, with and without sign, are those of numbers of 64 bits. -/
theorem millicode_divides (a b : BitVec 64) :
    udivdi3 a b = (if b = 0 then none else some (a / b)) ∧ umoddi3 a b = (if b = 0 then none else some (a % b)) ∧
    divdi3 a b = (if b = 0 then none else some (a.sdiv b)) ∧ moddi3 a b = if b = 0 then none else some (a.srem b) :=
  ⟨udivdi3_eq a b, umoddi3_eq a b, divdi3_eq a b, moddi3_eq a b⟩

/-- And so are the products, sums, shifts and comparisons. -/
theorem millicode_calculates (a b : BitVec 64) (shift : Fin 64) :
    muldi3 a b = a * b ∧ adddi3 a b = a + b ∧ subdi3 a b = a - b ∧ negdi2 a = -a ∧
    ashldi3 a shift = a <<< shift.val ∧ lshldi3 a shift = a <<< shift.val ∧ lshrdi3 a shift = a >>> shift.val ∧
    ashrdi3 a shift = a.sshiftRight shift ∧
    cmpdi2 a b = (if a.slt b then 0 else if b.slt a then 2 else 1) ∧
    ucmpdi2 a b = if a.ult b then 0 else if b.ult a then 2 else 1 :=
  ⟨muldi3_eq a b, adddi3_eq a b, subdi3_eq a b, negdi2_eq a, ashldi3_eq a shift, ashldi3_eq a shift, lshrdi3_eq a shift,
    ashrdi3_eq a shift, cmpdi2_eq a b, ucmpdi2_eq a b⟩

end OS161.Longlong
