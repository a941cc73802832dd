import Mathlib.Data.List.Range
import Mathlib.Data.Nat.Notation
import Mathlib.Logic.Function.Basic

/-!
# Rings

The contents of an array used as a ring: `count` slots from `out` on, going
around at the end.
-/

set_option autoImplicit false

namespace OS161.Ring

open Function

variable {α : Type*} {slots : ℕ → α} {size out count : ℕ}

def contents (slots : ℕ → α) (size out count : ℕ) : List α :=
  (List.range count).map (fun i => slots ((out+i) % size))

theorem slot_ne {i : ℕ} (hi : i < count) (hc : count < size) : (out+i) % size ≠ (out+count) % size := by
  intro he
  have hd : (count-i) % size = 0 := by
    have := Nat.sub_mod_eq_zero_of_mod_eq he.symm
    rwa [Nat.add_sub_add_left] at this
  rw [Nat.mod_eq_of_lt (by omega)] at hd
  omega

theorem contents_succ (slots : ℕ → α) (size out count : ℕ) :
    contents slots size out (count+1) = contents slots size out count ++ [slots ((out+count) % size)] := by
  rw [contents, List.range_succ, List.map_append, List.map_singleton, contents]

/-- The slot after the last one is not one of them. -/
theorem contents_store (hc : count < size) (x : α) :
    contents (update slots ((out+count) % size) x) size out count = contents slots size out count := by
  apply List.map_congr_left
  intro i hi
  rw [update_of_ne (slot_ne (List.mem_range.mp hi) hc)]

theorem contents_push (hc : count < size) (x : α) :
    contents (update slots ((out+count) % size) x) size out (count+1) =
      contents slots size out count ++ [x] := by
  rw [contents_succ, contents_store hc, update_self]

theorem contents_pop (hout : out < size) :
    contents slots size out (count+1) = slots out :: contents slots size ((out+1) % size) count := by
  rw [contents, List.range_succ_eq_map, List.map_cons, Nat.add_zero, Nat.mod_eq_of_lt hout, List.map_map]
  congr 1
  apply List.map_congr_left
  intro i _
  simp only [comp_apply, Nat.mod_add_mod]
  congr 2
  omega

end OS161.Ring
