import Mathlib.Algebra.BigOperators.Fin
import Mathlib.Algebra.BigOperators.Group.Finset.Basic
import Mathlib.Algebra.Order.BigOperators.Group.Finset
import Mathlib.Data.Fin.Tuple.Basic

/-!
# Slot arrays, ledgers and stores

Three containers that reference-counting code is built from. A slot array is
a fixed number of cells, each empty or holding one item; scans go from the
lowest index up. A ledger adds a quantity over finitely many owners, of which
new ones may be appended. A store hands out fresh addresses and only ever
marks a cell as freed: its contents stay readable for specifications, so that
what an address once meant does not depend on when it was given back.
-/

set_option autoImplicit false

namespace OS161.Slots

open Function

variable {n : ℕ} {α : Type*}

abbrev SlotArray (n : ℕ) (α : Type*) := Fin n → Option α

def SlotArray.empty : SlotArray n α := fun _ => none

def weight (w : α → ℕ) (t : SlotArray n α) : ℕ := ∑ i, (t i).elim 0 w

def occupied (t : SlotArray n α) : ℕ := weight (fun _ => 1) t

def first (p : Fin n → Bool) : Option (Fin n) := (List.finRange n).find? p

def firstFree (t : SlotArray n α) : Option (Fin n) := first (fun i => (t i).isNone)

def indexOf [DecidableEq α] (a : α) (t : SlotArray n α) : Option (Fin n) :=
  first (fun i => decide (t i = some a))

theorem first_eq_some {p : Fin n → Bool} {i : Fin n} :
    first p = some i ↔ p i = true ∧ ∀ j < i, p j = false := by
  rw [first, ← Fin.find?_eq_find?_finRange]
  exact Fin.find?_eq_some_iff

theorem first_eq_none {p : Fin n → Bool} : first p = none ↔ ∀ i, p i = false := by
  rw [first, ← Fin.find?_eq_find?_finRange]
  exact Fin.find?_eq_none_iff

theorem firstFree_eq_some {t : SlotArray n α} {i : Fin n} :
    firstFree t = some i ↔ t i = none ∧ ∀ j < i, t j ≠ none := by
  simp [firstFree, first_eq_some, Option.isSome_iff_ne_none]

theorem firstFree_eq_none {t : SlotArray n α} : firstFree t = none ↔ ∀ i, t i ≠ none := by
  simp [firstFree, first_eq_none, Option.isSome_iff_ne_none]

theorem indexOf_eq_some [DecidableEq α] {a : α} {t : SlotArray n α} {i : Fin n} :
    indexOf a t = some i ↔ t i = some a ∧ ∀ j < i, t j ≠ some a := by
  simp [indexOf, first_eq_some]

theorem indexOf_eq_none [DecidableEq α] {a : α} {t : SlotArray n α} :
    indexOf a t = none ↔ ∀ i, t i ≠ some a := by
  simp [indexOf, first_eq_none]

theorem weight_update (w : α → ℕ) (t : SlotArray n α) (i : Fin n) (x : Option α) :
    weight w (update t i x) + (t i).elim 0 w = weight w t + x.elim 0 w := by
  have hsplit : ∀ u : SlotArray n α,
      weight w u = (u i).elim 0 w + ∑ j ∈ Finset.univ.erase i, (u j).elim 0 w := by
    intro u
    exact (Finset.add_sum_erase _ _ (Finset.mem_univ i)).symm
  have hrest : ∑ j ∈ Finset.univ.erase i, (update t i x j).elim 0 w =
      ∑ j ∈ Finset.univ.erase i, (t j).elim 0 w := by
    apply Finset.sum_congr rfl
    intro j hj
    rw [update_of_ne (Finset.ne_of_mem_erase hj)]
  rw [hsplit (update t i x), hsplit t, hrest, update_self]
  omega

theorem weight_put {w : α → ℕ} {t : SlotArray n α} {i : Fin n} (h : t i = none) (a : α) :
    weight w (update t i (some a)) = weight w t + w a := by
  simpa [h] using weight_update w t i (some a)

theorem weight_clear {w : α → ℕ} {t : SlotArray n α} {i : Fin n} {a : α} (h : t i = some a) :
    weight w (update t i none) + w a = weight w t := by
  simpa [h] using weight_update w t i none

@[simp] theorem weight_empty (w : α → ℕ) : weight w (SlotArray.empty : SlotArray n α) = 0 := by
  simp [weight, SlotArray.empty]

theorem weight_congr {w w' : α → ℕ} {t : SlotArray n α}
    (h : ∀ i a, t i = some a → w a = w' a) : weight w t = weight w' t := by
  apply Finset.sum_congr rfl
  intro i _
  cases hi : t i with
  | none => rfl
  | some a => exact h i a hi

theorem le_weight {w : α → ℕ} {t : SlotArray n α} {i : Fin n} {a : α} (h : t i = some a) :
    w a ≤ weight w t := by
  have hle := Finset.single_le_sum (f := fun j => (t j).elim 0 w)
    (fun _ _ => Nat.zero_le _) (Finset.mem_univ i)
  simpa [weight, h] using hle

theorem weight_pos {w : α → ℕ} {t : SlotArray n α} :
    0 < weight w t ↔ ∃ i a, t i = some a ∧ 0 < w a := by
  constructor
  · intro h
    obtain ⟨i, -, hi⟩ := Finset.exists_ne_zero_of_sum_ne_zero (Nat.pos_iff_ne_zero.mp h)
    cases ha : t i with
    | none => simp [ha] at hi
    | some a => exact ⟨i, a, ha, Nat.pos_of_ne_zero (by simpa [ha] using hi)⟩
  · rintro ⟨i, a, ha, hw⟩
    exact lt_of_lt_of_le hw (le_weight ha)

theorem occupied_lt {t : SlotArray n α} {i : Fin n} (h : t i = none) : occupied t < n := by
  have hlt : ∑ j, (t j).elim 0 (fun _ => 1) < ∑ _j : Fin n, 1 := by
    apply Finset.sum_lt_sum
    · intro j _
      cases t j <;> simp
    · exact ⟨i, Finset.mem_univ i, by simp [h]⟩
  simpa [occupied, weight] using hlt

theorem occupied_full {t : SlotArray n α} : occupied t = n ↔ ∀ i, t i ≠ none := by
  constructor
  · intro h i hi
    have hlt := occupied_lt hi
    omega
  · intro h
    have hone : ∀ i ∈ Finset.univ, (t i).elim 0 (fun _ => 1) = 1 := by
      intro i _
      cases hi : t i with
      | none => exact absurd hi (h i)
      | some a => rfl
    simpa [occupied, weight] using Finset.sum_congr rfl hone

/-! Quantities added over the owners numbered below `m`. -/

def total (f : ℕ → ℕ) (m : ℕ) : ℕ := ∑ p ∈ Finset.range m, f p

theorem total_succ (f : ℕ → ℕ) (m : ℕ) : total f (m+1) = total f m + f m :=
  Finset.sum_range_succ f m

theorem total_congr {f g : ℕ → ℕ} {m : ℕ} (h : ∀ p < m, f p = g p) : total f m = total g m := by
  apply Finset.sum_congr rfl
  intro p hp
  exact h p (Finset.mem_range.mp hp)

theorem total_change {f g : ℕ → ℕ} {m p : ℕ} (hp : p < m) (h : ∀ q, q ≠ p → f q = g q) :
    total f m + g p = total g m + f p := by
  have hmem := Finset.mem_range.mpr hp
  have hf : total f m = f p + ∑ q ∈ (Finset.range m).erase p, f q :=
    (Finset.add_sum_erase _ _ hmem).symm
  have hg : total g m = g p + ∑ q ∈ (Finset.range m).erase p, g q :=
    (Finset.add_sum_erase _ _ hmem).symm
  have hrest : ∑ q ∈ (Finset.range m).erase p, f q = ∑ q ∈ (Finset.range m).erase p, g q := by
    apply Finset.sum_congr rfl
    intro q hq
    exact h q (Finset.ne_of_mem_erase hq)
  omega

theorem le_total (f : ℕ → ℕ) {m p : ℕ} (hp : p < m) : f p ≤ total f m :=
  Finset.single_le_sum (f := f) (fun _ _ => Nat.zero_le _) (Finset.mem_range.mpr hp)

theorem total_pos {f : ℕ → ℕ} {m : ℕ} : 0 < total f m ↔ ∃ p < m, 0 < f p := by
  constructor
  · intro h
    obtain ⟨p, hp, hf⟩ := Finset.exists_ne_zero_of_sum_ne_zero (Nat.pos_iff_ne_zero.mp h)
    exact ⟨p, Finset.mem_range.mp hp, Nat.pos_of_ne_zero hf⟩
  · rintro ⟨p, hp, hf⟩
    exact lt_of_lt_of_le hf (le_total f hp)

theorem total_add (f g : ℕ → ℕ) (m : ℕ) :
    total (fun p => f p + g p) m = total f m + total g m :=
  Finset.sum_add_distrib

/-! Stores. `cell` keeps what was written at an address, `live` says whether
the address has been handed out and not been freed. Addresses from `next` on
have never been handed out. -/

structure Store (α : Type*) where
  next : ℕ
  cell : ℕ → Option α
  live : ℕ → Bool
  cell_fresh : ∀ i, next ≤ i → cell i = none
  live_cell : ∀ i, live i = true → ∃ a, cell i = some a

namespace Store

def empty : Store α where
  next := 0
  cell := fun _ => none
  live := fun _ => false
  cell_fresh := fun _ _ => rfl
  live_cell := fun _ h => nomatch h

def alloc (st : Store α) (a : α) : Store α where
  next := st.next+1
  cell := update st.cell st.next (some a)
  live := update st.live st.next true
  cell_fresh := by
    intro i hi
    rw [update_of_ne (by omega), st.cell_fresh i (by omega)]
  live_cell := by
    intro i hi
    by_cases hn : i = st.next
    · subst hn
      exact ⟨a, update_self ..⟩
    · rw [update_of_ne hn] at hi ⊢
      exact st.live_cell i hi

def free (st : Store α) (i : ℕ) : Store α where
  next := st.next
  cell := st.cell
  live := update st.live i false
  cell_fresh := st.cell_fresh
  live_cell := by
    intro j hj
    by_cases hji : j = i
    · simp [hji] at hj
    · rw [update_of_ne hji] at hj
      exact st.live_cell j hj

/-- Overwriting an address that has been handed out. -/
def set (st : Store α) (i : ℕ) (a : α) : Store α where
  next := st.next
  cell := if i < st.next then update st.cell i (some a) else st.cell
  live := st.live
  cell_fresh := by
    intro j hj
    split
    · rw [update_of_ne (by omega), st.cell_fresh j hj]
    · exact st.cell_fresh j hj
  live_cell := by
    intro j hj
    split
    · by_cases hji : j = i
      · exact ⟨a, by rw [hji, update_self]⟩
      · rw [update_of_ne hji]
        exact st.live_cell j hj
    · exact st.live_cell j hj

def get (st : Store α) (i : ℕ) : Option α := if st.live i then st.cell i else none

theorem get_some {st : Store α} {i : ℕ} {a : α} :
    st.get i = some a ↔ st.live i = true ∧ st.cell i = some a := by
  unfold get
  split <;> simp_all

theorem cell_lt (st : Store α) {i : ℕ} {a : α} (hi : st.cell i = some a) : i < st.next := by
  by_contra hge
  rw [st.cell_fresh i (by omega)] at hi
  cases hi

theorem live_lt (st : Store α) {i : ℕ} (hi : st.live i = true) : i < st.next := by
  obtain ⟨a, ha⟩ := st.live_cell i hi
  exact st.cell_lt ha

@[simp] theorem alloc_next (st : Store α) (a : α) : (st.alloc a).next = st.next+1 := rfl

@[simp] theorem free_next (st : Store α) (i : ℕ) : (st.free i).next = st.next := rfl

@[simp] theorem free_cell (st : Store α) (i : ℕ) : (st.free i).cell = st.cell := rfl

@[simp] theorem alloc_get_self (st : Store α) (a : α) : (st.alloc a).get st.next = some a := by
  simp [get, alloc]

theorem alloc_get {st : Store α} {a : α} {i : ℕ} (h : i ≠ st.next) :
    (st.alloc a).get i = st.get i := by
  simp [get, alloc, update_of_ne h]

theorem alloc_get_old {st : Store α} {i : ℕ} {b : α} (h : st.get i = some b) (a : α) :
    (st.alloc a).get i = some b := by
  have hlt := st.live_lt (get_some.mp h).1
  rw [alloc_get (by omega), h]

theorem alloc_get_cases {st : Store α} {a x : α} {i : ℕ} (h : (st.alloc a).get i = some x) :
    (i = st.next ∧ x = a) ∨ (i ≠ st.next ∧ st.get i = some x) := by
  by_cases hi : i = st.next
  · rw [hi, alloc_get_self] at h
    exact .inl ⟨hi, (Option.some.inj h).symm⟩
  · rw [alloc_get hi] at h
    exact .inr ⟨hi, h⟩

theorem alloc_live {st : Store α} {i : ℕ} (h : st.live i = true) (a : α) :
    (st.alloc a).live i = true := by
  obtain ⟨b, hb⟩ := st.live_cell i h
  exact (get_some.mp (alloc_get_old (get_some.mpr ⟨h, hb⟩) a)).1

@[simp] theorem alloc_cell_self (st : Store α) (a : α) : (st.alloc a).cell st.next = some a := by
  simp [alloc]

theorem alloc_cell {st : Store α} {a : α} {i : ℕ} (h : i ≠ st.next) :
    (st.alloc a).cell i = st.cell i := by
  simp [alloc, update_of_ne h]

@[simp] theorem free_get_self (st : Store α) (i : ℕ) : (st.free i).get i = none := by
  simp [get, free]

theorem free_get {st : Store α} {i j : ℕ} (h : i ≠ j) : (st.free j).get i = st.get i := by
  simp [get, free, update_of_ne h]

@[simp] theorem set_next (st : Store α) (i : ℕ) (a : α) : (st.set i a).next = st.next := rfl

@[simp] theorem set_live (st : Store α) (i : ℕ) (a : α) : (st.set i a).live = st.live := rfl

theorem set_cell_self {st : Store α} {i : ℕ} (h : i < st.next) (a : α) :
    (st.set i a).cell i = some a := by
  simp [set, h]

theorem set_cell {st : Store α} {i j : ℕ} (h : j ≠ i) (a : α) : (st.set i a).cell j = st.cell j := by
  simp only [set]
  split
  · rw [update_of_ne h]
  · rfl

theorem set_get_self {st : Store α} {i : ℕ} {b : α} (h : st.get i = some b) (a : α) :
    (st.set i a).get i = some a := by
  obtain ⟨hl, hc⟩ := get_some.mp h
  exact get_some.mpr ⟨hl, set_cell_self (st.cell_lt hc) a⟩

theorem set_get {st : Store α} {i j : ℕ} (h : j ≠ i) (a : α) : (st.set i a).get j = st.get j := by
  simp [get, set_cell h]

theorem set_get_cases {st : Store α} {i j : ℕ} {a b x : α} (h : st.get i = some b)
    (hj : (st.set i a).get j = some x) : (j = i ∧ x = a) ∨ (j ≠ i ∧ st.get j = some x) := by
  by_cases hji : j = i
  · rw [hji, set_get_self h] at hj
    exact .inl ⟨hji, (Option.some.inj hj).symm⟩
  · rw [set_get hji] at hj
    exact .inr ⟨hji, hj⟩

theorem free_get_cases {st : Store α} {i j : ℕ} {x : α} (h : (st.free j).get i = some x) :
    i ≠ j ∧ st.get i = some x := by
  by_cases hij : i = j
  · rw [hij, free_get_self] at h
    cases h
  · rw [free_get hij] at h
    exact ⟨hij, h⟩

/-- A change that keeps a field of the cell keeps it everywhere. -/
theorem set_map {β : Type*} (f : α → β) {st : Store α} {i : ℕ} {a b : α} (h : st.get i = some b)
    (hf : f a = f b) (j : ℕ) : ((st.set i a).cell j).map f = (st.cell j).map f := by
  obtain ⟨-, hcell⟩ := get_some.mp h
  by_cases hji : j = i
  · rw [hji, set_cell_self (st.cell_lt hcell), hcell]
    simp [hf]
  · rw [set_cell hji]

theorem set_get_exists {st : Store α} {i j : ℕ} {b : α} (h : st.get i = some b) (a : α)
    (hj : ∃ x, st.get j = some x) : ∃ x, (st.set i a).get j = some x := by
  by_cases hji : j = i
  · exact ⟨a, hji ▸ set_get_self h a⟩
  · rwa [set_get hji]

end Store

end OS161.Slots
