import Mathlib.Logic.Equiv.Basic
import OS161.SfsckInodes

/-!
# Sorting in libc

`qsort` moves what is not greater than the middle element to the front, and sorts
both parts. If that leaves nothing in the back the middle element was the greatest;
it goes to the end, and all that is equal to it there is done with.
-/

set_option autoImplicit false

namespace OS161.Qsort

open Function

variable {α : Type}

/-- `COMPARE`, for elements of the array at `base`. -/
def compare (f : α → α → ℤ) (data : ℕ → α) (base aa bb : ℕ) : ℤ :=
  if aa = bb then 0 else f (data (base+aa)) (data (base+bb))

/-- `EXCHANGE`. -/
def exchange (data : ℕ → α) (base aa bb : ℕ) : ℕ → α :=
  update (update data (base+aa) (data (base+bb))) (base+bb) (data (base+aa))

structure Shift (α : Type) where
  data : ℕ → α
  pivot : ℕ
  head : ℕ
  tail : ℕ

/-- The loop of step 2. -/
def shift (f : α → α → ℤ) (base : ℕ) (s : Shift α) : Shift α :=
  if s.head < s.tail then
    if compare f s.data base s.head s.pivot ≤ 0 then shift f base { s with head := s.head+1 }
    else if 0 < compare f s.data base s.tail s.pivot then shift f base { s with tail := s.tail-1 }
    else shift f base {
      data := exchange s.data base s.head s.tail
      pivot := if s.pivot = s.head then s.tail else if s.pivot = s.tail then s.head else s.pivot
      head := s.head+1
      tail := s.tail-1 }
  else s
termination_by s.tail - s.head

/-- The loop of step 4. -/
def lopOff (f : α → α → ℤ) (data : ℕ → α) (base : ℕ) : ℕ → ℕ
  | 0 => 0
  | tail+1 => if compare f data base tail (tail+1) = 0 then lopOff f data base tail else tail+1

theorem lopOff_le (f : α → α → ℤ) (data : ℕ → α) (base tail : ℕ) : lopOff f data base tail ≤ tail := by
  induction tail with
  | zero => exact Nat.le_refl 0
  | succ tail ih =>
    unfold lopOff
    split
    · exact Nat.le_succ_of_le ih
    · exact Nat.le_refl _

/-- Steps 1 and 2. -/
def shifted (f : α → α → ℤ) (data : ℕ → α) (base num : ℕ) : Shift α := shift f base ⟨data, num/2, 0, num-1⟩

/-- Step 3: where the back part starts. -/
def backStart (f : α → α → ℤ) (base : ℕ) (s : Shift α) : ℕ :=
  if s.tail < s.head ∨ compare f s.data base s.head s.pivot ≤ 0 then s.tail+1 else s.tail

/-- The array after step 4 has put the pivot at the end. -/
def pivotLast (f : α → α → ℤ) (base num : ℕ) (s : Shift α) : ℕ → α :=
  if s.pivot < num-1 ∧ 0 < compare f s.data base s.pivot (num-1) then exchange s.data base s.pivot (num-1) else s.data

/-- The array is what starts at `base`; there is no result if the assertion fails. -/
def qsort (f : α → α → ℤ) (data : ℕ → α) (base num : ℕ) : Option (ℕ → α) :=
  if num ≤ 1 then some data
  else if num = 2 ∧ 0 < compare f data base 0 1 then some (exchange data base 0 1)
  else if backStart f base (shifted f data base num) = num then
    if 0 < lopOff f (pivotLast f base num (shifted f data base num)) base (num-1) then
      qsort f (pivotLast f base num (shifted f data base num)) base
        (lopOff f (pivotLast f base num (shifted f data base num)) base (num-1))
    else some (pivotLast f base num (shifted f data base num))
  else if 0 < backStart f base (shifted f data base num) ∧ backStart f base (shifted f data base num) < num then
    match qsort f (shifted f data base num).data base (backStart f base (shifted f data base num)) with
    | none => none
    | some data' =>
      qsort f data' (base + backStart f base (shifted f data base num)) (num - backStart f base (shifted f data base num))
  else none
termination_by num
decreasing_by
  · exact Nat.lt_of_le_of_lt (lopOff_le _ _ _ _) (by omega)
  · omega
  · omega

/-- What a comparison function has to be like. -/
structure Ordering (f : α → α → ℤ) : Prop where
  swap : ∀ a b, 0 < f a b ↔ f b a < 0
  trans : ∀ a b c, f a b ≤ 0 → f b c ≤ 0 → f a c ≤ 0

/-- The `num` elements from `base` on are in another order, and all else is as it was. -/
def Rearranged (base num : ℕ) (data data' : ℕ → α) : Prop :=
  ∃ σ : Equiv.Perm ℕ, data' = data ∘ σ ∧ ∀ i, i < base ∨ base+num ≤ i → σ i = i

def SortedFrom (f : α → α → ℤ) (base num : ℕ) (data : ℕ → α) : Prop :=
  ∀ i j, base ≤ i → i < j → j < base+num → f (data i) (data j) ≤ 0

variable {f : α → α → ℤ} {data data' data'' : ℕ → α} {base base' num num' aa bb i : ℕ} {s : Shift α} {v : α}

theorem Rearranged.refl (base num : ℕ) (data : ℕ → α) : Rearranged base num data data := ⟨Equiv.refl ℕ, rfl, fun _ _ => rfl⟩

theorem Rearranged.trans (h : Rearranged base num data data') (h' : Rearranged base num data' data'') :
    Rearranged base num data data'' := by
  obtain ⟨σ, rfl, hσ⟩ := h
  obtain ⟨τ, rfl, hτ⟩ := h'
  refine ⟨τ.trans σ, rfl, fun i hi => ?_⟩
  rw [Equiv.trans_apply, hτ i hi, hσ i hi]

theorem Rearranged.widen (h : Rearranged base' num' data data') (hbase : base ≤ base') (hnum : base'+num' ≤ base+num) :
    Rearranged base num data data' := by
  obtain ⟨σ, rfl, hσ⟩ := h
  exact ⟨σ, rfl, fun i hi => hσ i (by omega)⟩

theorem Rearranged.outside (h : Rearranged base num data data') (hi : i < base ∨ base+num ≤ i) : data' i = data i := by
  obtain ⟨σ, rfl, hσ⟩ := h
  rw [comp_apply, hσ i hi]

/-- What is true of all elements is so in any order. -/
theorem Rearranged.all (P : α → Prop) (h : Rearranged base num data data')
    (hP : ∀ i, base ≤ i → i < base+num → P (data i)) (i : ℕ) (hlow : base ≤ i) (hhigh : i < base+num) : P (data' i) := by
  obtain ⟨σ, rfl, hσ⟩ := h
  have hin : base ≤ σ i ∧ σ i < base+num := by
    by_contra hout
    have hfix := hσ (σ i) (by omega)
    have hsame := σ.injective hfix
    omega
  exact hP (σ i) hin.1 hin.2

theorem exchange_rearranges (data : ℕ → α) (base : ℕ) (haa : aa < num) (hbb : bb < num) :
    Rearranged base num data (exchange data base aa bb) := by
  refine ⟨Equiv.swap (base+aa) (base+bb), ?_, fun i hi => Equiv.swap_apply_of_ne_of_ne (by omega) (by omega)⟩
  funext i
  unfold exchange
  by_cases hb : i = base+bb
  · rw [hb, update_self, comp_apply, Equiv.swap_apply_right]
  · rw [update_of_ne hb]
    by_cases ha : i = base+aa
    · rw [ha, update_self, comp_apply, Equiv.swap_apply_left]
    · rw [update_of_ne ha, comp_apply, Equiv.swap_apply_of_ne_of_ne ha hb]

theorem Ordering.self (h : Ordering f) (a : α) : f a a = 0 := by
  have hswap := h.swap a a
  omega

theorem Ordering.compare (h : Ordering f) (data : ℕ → α) (base aa bb : ℕ) :
    compare f data base aa bb = f (data (base+aa)) (data (base+bb)) := by
  unfold Qsort.compare
  split
  · next heq => rw [heq, h.self]
  · rfl

theorem Ordering.below (h : Ordering f) {a b c : α} (hab : f a b ≤ 0) (hcb : 0 < f c b) : f a c ≤ 0 :=
  h.trans a b c hab (Int.le_of_lt ((h.swap c b).mp hcb))

/-- In the loop of step 2 nothing leaves the array, whatever the comparison says. -/
structure Within (data : ℕ → α) (base num : ℕ) (s : Shift α) : Prop where
  rearranged : Rearranged base num data s.data
  pivot : s.pivot < num
  tail : s.tail < num
  ends : s.head ≤ s.tail + 1

theorem shift_within (hs : Within data base num s) : Within data base num (shift f base s) ∧
    (shift f base s).tail ≤ (shift f base s).head := by
  induction s using shift.induct f base with
  | case1 s hlt hfront ih =>
    rw [shift, if_pos hlt, if_pos hfront]
    exact ih { hs with ends := by dsimp only; omega }
  | case2 s hlt hfront hback ih =>
    rw [shift, if_pos hlt, if_neg hfront, if_pos hback]
    have htail := hs.tail
    exact ih { hs with tail := by dsimp only; omega, ends := by dsimp only; omega }
  | case3 s hlt hfront hback ih =>
    rw [shift, if_pos hlt, if_neg hfront, if_neg hback]
    have htail := hs.tail
    have hpivot := hs.pivot
    have hhead : s.head < num := by omega
    refine ih ⟨hs.rearranged.trans (exchange_rearranges _ _ hhead htail), ?_, ?_, ?_⟩
    · dsimp only
      split
      · exact htail
      · split <;> omega
    · dsimp only
      omega
    · dsimp only
      omega
  | case4 s hge =>
    rw [shift, if_neg hge]
    exact ⟨hs, by omega⟩

/-- With `v` the value of the pivot, what is before the head is not greater, and what is behind the tail is. -/
structure Parts (f : α → α → ℤ) (base num : ℕ) (v : α) (s : Shift α) : Prop where
  value : s.data (base + s.pivot) = v
  front : ∀ i, i < s.head → f (s.data (base+i)) v ≤ 0
  back : ∀ i, s.tail < i → i < num → 0 < f (s.data (base+i)) v

theorem shift_parts (h : Ordering f) (hs : Parts f base num v s) : Parts f base num v (shift f base s) := by
  induction s using shift.induct f base with
  | case1 s hlt hfront ih =>
    rw [shift, if_pos hlt, if_pos hfront]
    rw [h.compare, hs.value] at hfront
    refine ih { hs with front := fun i hi => ?_ }
    dsimp only at hi ⊢
    obtain rfl | hi : i = s.head ∨ i < s.head := by omega
    · exact hfront
    · exact hs.front i hi
  | case2 s hlt hfront hback ih =>
    rw [shift, if_pos hlt, if_neg hfront, if_pos hback]
    rw [h.compare, hs.value] at hback
    refine ih { hs with back := fun i hi hn => ?_ }
    dsimp only at hi ⊢
    obtain rfl | hi : i = s.tail ∨ s.tail < i := by omega
    · exact hback
    · exact hs.back i hi hn
  | case3 s hlt hfront hback ih =>
    rw [shift, if_pos hlt, if_neg hfront, if_neg hback]
    rw [h.compare, hs.value] at hfront hback
    have hother : ∀ i, i ≠ s.head → i ≠ s.tail → exchange s.data base s.head s.tail (base+i) = s.data (base+i) := by
      intro i hh ht
      unfold exchange
      rw [update_of_ne (by omega), update_of_ne (by omega)]
    have hathead : exchange s.data base s.head s.tail (base + s.head) = s.data (base + s.tail) := by
      unfold exchange
      rw [update_of_ne (by omega), update_self]
    have hattail : exchange s.data base s.head s.tail (base + s.tail) = s.data (base + s.head) := update_self ..
    refine ih ⟨?_, fun i hi => ?_, fun i hi hn => ?_⟩
    · dsimp only
      split
      · next hp => rw [hattail, ← hp, hs.value]
      · split
        · next hp => rw [hathead, ← hp, hs.value]
        · next hp hp' => rw [hother _ hp hp', hs.value]
    · dsimp only at hi ⊢
      obtain rfl | hi : i = s.head ∨ i < s.head := by omega
      · rw [hathead]
        omega
      · rw [hother i (by omega) (by omega)]
        exact hs.front i hi
    · dsimp only at hi ⊢
      obtain rfl | hi : i = s.tail ∨ s.tail < i := by omega
      · rw [hattail]
        omega
      · rw [hother i (by omega) (by omega)]
        exact hs.back i hi hn
  | case4 s hge =>
    rw [shift, if_neg hge]
    exact hs

/-- Elements at the end that are equal to the last one. -/
theorem lopOff_equal (h : Ordering f) (k i : ℕ) (hi : lopOff f data base k ≤ i) (hk : i ≤ k) :
    f (data (base+k)) (data (base+i)) ≤ 0 := by
  induction k with
  | zero =>
    obtain rfl : i = 0 := by omega
    exact Int.le_of_eq (h.self _)
  | succ k ih =>
    obtain rfl | hlt : i = k+1 ∨ i ≤ k := by omega
    · exact Int.le_of_eq (h.self _)
    · unfold lopOff at hi
      split at hi
      · next heq =>
        rw [h.compare] at heq
        have hback : f (data (base+(k+1))) (data (base+k)) ≤ 0 := by
          by_contra hpos
          have := (h.swap _ _).mp (Int.not_le.mp hpos)
          omega
        exact h.trans _ _ _ hback (ih hi hlt)
      · omega

theorem backStart_le (f : α → α → ℤ) (h : Within data base num s) : backStart f base s ≤ num := by
  have htail := h.tail
  unfold backStart
  split <;> omega

/-- The front part has the pivot, so that it is not empty. -/
theorem backStart_parts (h : Ordering f) (hw : Within data base num s) (hcross : s.tail ≤ s.head) (hs : Parts f base num v s) :
    0 < backStart f base s ∧ (∀ i, i < backStart f base s → f (s.data (base+i)) v ≤ 0) ∧
      ∀ i, backStart f base s ≤ i → i < num → 0 < f (s.data (base+i)) v := by
  have hends := hw.ends
  have hparts : (∀ i, i < backStart f base s → f (s.data (base+i)) v ≤ 0) ∧
      ∀ i, backStart f base s ≤ i → i < num → 0 < f (s.data (base+i)) v := by
    unfold backStart
    split
    · next hfront =>
      refine ⟨fun i hi => ?_, fun i hi hn => hs.back i (by omega) hn⟩
      by_cases hhead : i < s.head
      · exact hs.front i hhead
      · obtain hlt | hle := hfront
        · omega
        · rw [h.compare, hs.value] at hle
          obtain rfl : i = s.head := by omega
          exact hle
    · next hback =>
      rw [h.compare, hs.value, not_or] at hback
      refine ⟨fun i hi => hs.front i (by omega), fun i hi hn => ?_⟩
      obtain rfl | hlt : i = s.head ∨ s.tail < i := by omega
      · omega
      · exact hs.back i hlt hn
  refine ⟨?_, hparts⟩
  by_contra hzero
  have hpos := hparts.2 s.pivot (by omega) hw.pivot
  rw [hs.value, h.self] at hpos
  exact absurd hpos (Int.lt_irrefl 0)

theorem pivotLast_rearranges (f : α → α → ℤ) (h : Within data base num s) :
    Rearranged base num data (pivotLast f base num s) := by
  have hpivot := h.pivot
  unfold pivotLast
  split
  · exact h.rearranged.trans (exchange_rearranges _ _ hpivot (by omega))
  · exact h.rearranged

/-- If nothing is greater than the pivot, nothing is greater than what is then the last element. -/
theorem pivotLast_greatest (h : Ordering f) (hw : Within data base num s) (hs : Parts f base num v s)
    (hall : ∀ i, i < num → f (s.data (base+i)) v ≤ 0) (i : ℕ) (hi : i < num) :
    f (pivotLast f base num s (base+i)) (pivotLast f base num s (base+(num-1))) ≤ 0 := by
  have hpivot := hw.pivot
  have hv : ∀ i, base ≤ i → i < base+num → f (s.data i) v ≤ 0 := by
    intro i hlow hhigh
    rw [show i = base + (i-base) by omega]
    exact hall _ (by omega)
  unfold pivotLast
  split
  · have hlast : exchange s.data base s.pivot (num-1) (base+(num-1)) = v := (update_self ..).trans hs.value
    rw [hlast]
    have hr := exchange_rearranges s.data base hpivot (show num-1 < num by omega)
    exact hr.all (fun x => f x v ≤ 0) hv (base+i) (by omega) (by omega)
  · next hno =>
    refine h.trans _ v _ (hall i hi) ?_
    by_cases hlast : s.pivot = num-1
    · rw [← hlast, hs.value, h.self]
    · rw [h.compare, hs.value] at hno
      omega

theorem qsort_step (f : α → α → ℤ) (data : ℕ → α) (base num : ℕ) (hnum : ¬num ≤ 1)
    (htwo : ¬(num = 2 ∧ 0 < compare f data base 0 1)) {s : Shift α} (hs : shifted f data base num = s) :
    qsort f data base num =
      if backStart f base s = num then
        if 0 < lopOff f (pivotLast f base num s) base (num-1) then
          qsort f (pivotLast f base num s) base (lopOff f (pivotLast f base num s) base (num-1))
        else some (pivotLast f base num s)
      else if 0 < backStart f base s ∧ backStart f base s < num then
        match qsort f s.data base (backStart f base s) with
        | none => none
        | some data' => qsort f data' (base + backStart f base s) (num - backStart f base s)
      else none := by
  rw [qsort, if_neg hnum, if_neg htwo, hs]

theorem shifted_within (f : α → α → ℤ) (data : ℕ → α) (base : ℕ) (hnum : ¬num ≤ 1) :
    Within data base num (shifted f data base num) ∧ (shifted f data base num).tail ≤ (shifted f data base num).head :=
  shift_within ⟨.refl base num data, by dsimp only; omega, by dsimp only; omega, Nat.zero_le _⟩

theorem shifted_parts (h : Ordering f) (data : ℕ → α) (base num : ℕ) :
    Parts f base num (data (base+num/2)) (shifted f data base num) :=
  shift_parts h ⟨rfl, fun i hi => absurd hi (Nat.not_lt_zero i), fun i hi hn => by dsimp only at hi; omega⟩

/-- Whatever the comparison says, only the order of the elements changes, and nothing outside the array. -/
theorem qsort_rearranges (f : α → α → ℤ) (hrun : qsort f data base num = some data') : Rearranged base num data data' := by
  induction num using Nat.strong_induction_on generalizing base data data' with
  | _ num ih =>
    by_cases hnum : num ≤ 1
    · rw [qsort, if_pos hnum] at hrun
      cases hrun
      exact .refl ..
    · by_cases htwo : num = 2 ∧ 0 < compare f data base 0 1
      · rw [qsort, if_neg hnum, if_pos htwo] at hrun
        cases hrun
        exact exchange_rearranges _ _ (by omega) (by omega)
      · obtain ⟨hw, -⟩ := shifted_within f data base hnum
        generalize hs : shifted f data base num = s at hw
        rw [qsort_step f data base num hnum htwo hs] at hrun
        split at hrun
        · have hlast := pivotLast_rearranges f hw
          have hle := lopOff_le f (pivotLast f base num s) base (num-1)
          split at hrun
          · exact hlast.trans ((ih _ (by omega) hrun).widen (Nat.le_refl _) (by omega))
          · cases hrun
            exact hlast
        · split at hrun
          · next hpart =>
            split at hrun
            · cases hrun
            · next data₁ hfront =>
              refine hw.rearranged.trans (((ih _ hpart.2 hfront).widen (Nat.le_refl _) (by omega)).trans ?_)
              exact (ih _ (by omega) hrun).widen (by omega) (by omega)
          · cases hrun

/-- What is sorted with only equals of a greatest element after it. -/
theorem sortedFrom_top (h : Ordering f) {k : ℕ} (hk : k ≤ num) (hr : Rearranged base k data data')
    (hsorted : SortedFrom f base k data') (hall : ∀ i, i < num → f (data (base+i)) v ≤ 0) (htop : ∀ i, k ≤ i → i < num → f v (data (base+i)) ≤ 0) :
    SortedFrom f base num data' := by
  have hbelow : ∀ i, base ≤ i → i < base+num → f (data' i) v ≤ 0 := by
    refine (hr.widen (Nat.le_refl base) (by omega)).all (fun x => f x v ≤ 0) fun i hlow hhigh => ?_
    rw [show i = base + (i-base) by omega]
    exact hall _ (by omega)
  intro i j hi hij hj
  by_cases hjk : j < base+k
  · exact hsorted i j hi hij hjk
  · refine h.trans _ v _ (hbelow i hi (by omega)) ?_
    rw [hr.outside (.inr (Nat.le_of_not_lt hjk)), show j = base + (j-base) by omega]
    exact htop _ (by omega) (by omega)

theorem sortedFrom_parts (h : Ordering f) {k : ℕ} (hk : k ≤ num) (hr : Rearranged base k data data')
    (hr' : Rearranged (base+k) (num-k) data' data'') (hsorted : SortedFrom f base k data') (hsorted' : SortedFrom f (base+k) (num-k) data'')
    (hfront : ∀ i, i < k → f (data (base+i)) v ≤ 0) (hback : ∀ i, k ≤ i → i < num → 0 < f (data (base+i)) v) :
    SortedFrom f base num data'' := by
  have hlow : ∀ i, base ≤ i → i < base+k → f (data' i) v ≤ 0 := by
    refine hr.all (fun x => f x v ≤ 0) fun i hi hhigh => ?_
    rw [show i = base + (i-base) by omega]
    exact hfront _ (by omega)
  have hhigh : ∀ i, base+k ≤ i → i < base+k+(num-k) → 0 < f (data'' i) v := by
    refine hr'.all (fun x => 0 < f x v) fun i hi hn => ?_
    rw [hr.outside (.inr hi), show i = base + (i-base) by omega]
    exact hback _ (by omega) (by omega)
  intro i j hi hij hj
  by_cases hjk : j < base+k
  · rw [hr'.outside (.inl (by omega)), hr'.outside (.inl hjk)]
    exact hsorted i j hi hij hjk
  · by_cases hik : i < base+k
    · rw [hr'.outside (.inl hik)]
      exact h.below (hlow i hi hik) (hhigh j (by omega) (by omega))
    · exact hsorted' i j (by omega) hij (by omega)

/-- With a comparison that is an order the array ends up sorted, and the assertion never fails. -/
theorem qsort_sorts (h : Ordering f) (data : ℕ → α) (base num : ℕ) :
    ∃ data', qsort f data base num = some data' ∧ SortedFrom f base num data' := by
  induction num using Nat.strong_induction_on generalizing base data with
  | _ num ih =>
    by_cases hnum : num ≤ 1
    · exact ⟨data, by rw [qsort, if_pos hnum], fun i j hi hij hj => by omega⟩
    · by_cases htwo : num = 2 ∧ 0 < compare f data base 0 1
      · refine ⟨_, by rw [qsort, if_neg hnum, if_pos htwo], fun i j hi hij hj => ?_⟩
        obtain ⟨rfl, hgreater⟩ := htwo
        have hfirst : i = base+0 := by omega
        have hsecond : j = base+1 := by omega
        rw [h.compare] at hgreater
        unfold exchange
        rw [hfirst, hsecond, update_self, update_of_ne (by omega), update_self]
        exact Int.le_of_lt ((h.swap _ _).mp hgreater)
      · obtain ⟨hw, hcross⟩ := shifted_within f data base hnum
        have hs := shifted_parts h data base num
        generalize hshift : shifted f data base num = s at hw hcross hs
        generalize data (base+num/2) = v at hs
        obtain ⟨hpos, hfront, hback⟩ := backStart_parts h hw hcross hs
        have hle := backStart_le f hw
        rw [qsort_step f data base num hnum htwo hshift]
        by_cases hwhole : backStart f base s = num
        · rw [if_pos hwhole]
          have hlop := lopOff_le f (pivotLast f base num s) base (num-1)
          have hall := pivotLast_greatest h hw hs fun i hi => hfront i (hwhole ▸ hi)
          have htop : ∀ i, lopOff f (pivotLast f base num s) base (num-1) ≤ i → i < num →
              f (pivotLast f base num s (base+(num-1))) (pivotLast f base num s (base+i)) ≤ 0 :=
            fun i hi hn => lopOff_equal h (num-1) i hi (by omega)
          split
          · obtain ⟨data', hrun, hsorted⟩ :=
              ih (lopOff f (pivotLast f base num s) base (num-1)) (by omega) (pivotLast f base num s) base
            exact ⟨data', hrun, sortedFrom_top h (by omega) (qsort_rearranges f hrun) hsorted hall htop⟩
          · next hzero =>
            refine ⟨_, rfl, sortedFrom_top (k := 0) h (Nat.zero_le _) (.refl ..) (fun i j hi hij hj => by omega) hall ?_⟩
            exact fun i _ hn => htop i (by omega) hn
        · have hlt : backStart f base s < num := Nat.lt_of_le_of_ne hle hwhole
          rw [if_neg hwhole, if_pos ⟨hpos, hlt⟩]
          obtain ⟨data₁, hrun₁, hsorted₁⟩ := ih (backStart f base s) hlt s.data base
          obtain ⟨data₂, hrun₂, hsorted₂⟩ := ih (num - backStart f base s) (by omega) data₁ (base + backStart f base s)
          refine ⟨data₂, by rw [hrun₁]; exact hrun₂, ?_⟩
          exact sortedFrom_parts h hle (qsort_rearranges f hrun₁) (qsort_rearranges f hrun₂) hsorted₁ hsorted₂ hfront hback

/-! Arrays as lists. -/

/-- The elements of the array. -/
def elements (data : ℕ → α) (base num : ℕ) : List α := (List.range num).map fun i => data (base+i)

theorem Rearranged.perm (h : Rearranged base num data data') : (elements data' base num).Perm (elements data base num) := by
  obtain ⟨σ, rfl, hσ⟩ := h
  have hin : ∀ i, i < num → base ≤ σ (base+i) ∧ σ (base+i) < base+num := by
    intro i hi
    by_contra hout
    have hfix := σ.injective (hσ (σ (base+i)) (by omega))
    omega
  have hnodup : ((List.range num).map fun i => σ (base+i) - base).Nodup := by
    refine List.Nodup.map_on (fun i hi j hj hij => ?_) List.nodup_range
    have hi := hin i (List.mem_range.mp hi)
    have hj := hin j (List.mem_range.mp hj)
    have hsame := σ.injective (show σ (base+i) = σ (base+j) by omega)
    omega
  have hsubset : ((List.range num).map fun i => σ (base+i) - base) ⊆ List.range num := by
    intro k hk
    obtain ⟨i, hi, rfl⟩ := List.mem_map.mp hk
    have hi := hin i (List.mem_range.mp hi)
    exact List.mem_range.mpr (by omega)
  have hperm : ((List.range num).map fun i => σ (base+i) - base).Perm (List.range num) :=
    (List.subperm_of_subset hnodup hsubset).perm_of_length_le (by simp)
  have hsame : elements (data ∘ σ) base num = ((List.range num).map fun i => σ (base+i) - base).map fun i => data (base+i) := by
    unfold elements
    rw [List.map_map]
    refine List.map_congr_left fun i hi => ?_
    have hi := hin i (List.mem_range.mp hi)
    show data (σ (base+i)) = data (base + (σ (base+i) - base))
    rw [Nat.add_sub_cancel' hi.1]
  rw [hsame]
  exact hperm.map _

theorem SortedFrom.pairwise (h : SortedFrom f base num data) : (elements data base num).Pairwise fun a b => f a b ≤ 0 := by
  unfold elements
  rw [List.pairwise_map]
  refine List.pairwise_lt_range.imp_of_mem fun {i j} _ hj hij => ?_
  exact h (base+i) (base+j) (by omega) (by omega) (Nat.add_lt_add_left (List.mem_range.mp hj) base)

/-- `qsort` on an array: with a comparison that is an order the assertion never fails, and what is left is sorted; and
whatever the comparison does, the elements are the same, and nothing outside the array is touched. -/
theorem qsort_array (f : α → α → ℤ) (data : ℕ → α) (base num : ℕ) :
    (Ordering f → ∃ data', qsort f data base num = some data' ∧ (elements data' base num).Pairwise fun a b => f a b ≤ 0) ∧
      ∀ data', qsort f data base num = some data' → (elements data' base num).Perm (elements data base num) ∧
        ∀ i, i < base ∨ base+num ≤ i → data' i = data i := by
  refine ⟨fun h => ?_, fun data' hrun => ?_⟩
  · obtain ⟨data', hrun, hsorted⟩ := qsort_sorts h data base num
    exact ⟨data', hrun, hsorted.pairwise⟩
  · exact ⟨(qsort_rearranges f hrun).perm, fun i hi => (qsort_rearranges f hrun).outside hi⟩

/-- Numbers in their order. -/
theorem difference_ordering : Ordering fun a b : ℤ => a - b := ⟨fun a b => by omega, fun a b c => by omega⟩

theorem qsort_numbers : (∃ data', qsort (fun a b : ℤ => a - b) (fun i => ([3, 1, 2] : List ℤ).getD i 0) 0 3 = some data' ∧
    (elements data' 0 3).Pairwise fun a b => a - b ≤ 0) :=
  (qsort_array (fun a b : ℤ => a - b) (fun i => ([3, 1, 2] : List ℤ).getD i 0) 0 3).1 difference_ordering

/-! What sfsck relies on. -/

/-- A comparison function for an order. -/
def order (le : α → α → Bool) (a b : α) : ℤ := if le a b then (if le b a then 0 else -1) else 1

theorem order_le (le : α → α → Bool) (a b : α) : order le a b ≤ 0 ↔ le a b = true := by
  unfold order
  split
  · next h => split <;> simp [h]
  · next h => simp [h]

theorem order_ordering {le : α → α → Bool} (htrans : ∀ a b c, le a b = true → le b c = true → le a c = true)
    (htotal : ∀ a b, le a b = true ∨ le b a = true) : Ordering (order le) := by
  refine ⟨fun a b => ?_, fun a b c hab hbc => ?_⟩
  · unfold order
    cases hab : le a b <;> cases hba : le b a <;> simp
    have := htotal a b
    simp [hab, hba] at this
  · rw [order_le] at hab hbc ⊢
    exact htrans a b c hab hbc

/-- The list in the order in which `qsort` leaves it. -/
def sortList (le : α → α → Bool) (l : List α) : List α :=
  match l with
  | [] => []
  | a::rest =>
    match qsort (order le) (fun i => (a::rest).getD i a) 0 (rest.length+1) with
    | none => a::rest
    | some data => elements data 0 (rest.length+1)

theorem elements_getD (a : α) (l : List α) : elements (fun i => l.getD i a) 0 l.length = l := by
  unfold elements
  refine List.ext_getElem (by simp) fun i hi hi' => ?_
  simp [hi']

/-- The function of libc is as good as sfsck takes it to be. -/
def libcQsort : SfsckInodes.Qsort where
  sort := sortList
  perm le l := by
    cases l with
    | nil => exact .refl _
    | cons a rest =>
      unfold sortList
      dsimp only
      split
      · exact .refl _
      · next data hrun =>
        have hperm := (qsort_rearranges _ hrun).perm
        rwa [show rest.length+1 = (a::rest).length from rfl, elements_getD] at hperm
  sorted le htrans htotal l := by
    cases l with
    | nil => exact .nil
    | cons a rest =>
      obtain ⟨data, hrun, hsorted⟩ := qsort_sorts (order_ordering htrans htotal) (fun i => (a::rest).getD i a) 0 (rest.length+1)
      unfold sortList
      dsimp only
      rw [hrun]
      exact hsorted.pairwise.imp fun hle => (order_le le _ _).mp hle

end OS161.Qsort
