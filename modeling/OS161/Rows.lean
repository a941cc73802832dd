import Mathlib.Data.List.Chain
import Mathlib.Data.List.Nodup
import Mathlib.Logic.Function.Basic

/-!
# Rows of nodes linked both ways

Each node of a row points at the one after it, and that one points back. The
pointers that lead out of the row at its ends are left open. A node is put
between two neighbours, or taken out from between them, by changing the pointers
of the three nodes concerned.
-/

set_option autoImplicit false

namespace OS161.Rows

open Function

variable {N : Type*} {next prev next' prev' : N → Option N} {a b x : N} {l ys zs : List N}

def Linked (next prev : N → Option N) (a b : N) : Prop := next a = some b ∧ prev b = some a

def Row (next prev : N → Option N) (l : List N) : Prop := l.IsChain (Linked next prev)

/-- The row depends on the pointers inside it. -/
theorem Row.frame (h : Row next prev l) (hnext : ∀ a ∈ l.dropLast, next' a = next a)
    (hprev : ∀ b ∈ l.tail, prev' b = prev b) : Row next' prev' l := by
  unfold Row at *
  induction l with
  | nil => exact .nil
  | cons a l ih =>
    cases l with
    | nil => exact .singleton a
    | cons b l =>
      rw [List.isChain_cons_cons] at h ⊢
      refine ⟨⟨?_, ?_⟩, ih h.2 (fun c hc => hnext c ?_) (fun c hc => hprev c ?_)⟩
      · rw [hnext a (by simp)]
        exact h.1.1
      · rw [hprev b (by simp)]
        exact h.1.2
      · rw [List.dropLast_cons_cons]
        exact List.mem_cons_of_mem a hc
      · exact List.mem_of_mem_tail hc

theorem row_split : Row next prev (ys ++ a::b::zs) ↔
    Row next prev (ys ++ [a]) ∧ Linked next prev a b ∧ Row next prev (b::zs) :=
  List.isChain_append_cons_cons

variable [DecidableEq N]

/-- Between two neighbours. -/
theorem Row.insert (h : Row next prev (ys ++ a::b::zs)) (hd : (ys ++ a::b::zs).Nodup) (hx : x ∉ ys ++ a::b::zs) :
    Row (update (update next x (some b)) a (some x)) (update (update prev x (some a)) b (some x))
      (ys ++ a::x::b::zs) := by
  obtain ⟨hleft, -, hright⟩ := row_split.mp h
  obtain ⟨hys, hrest, hdisj⟩ := List.nodup_append.mp hd
  obtain ⟨hab, hb⟩ := List.nodup_cons.mp hrest
  obtain ⟨hbz, -⟩ := List.nodup_cons.mp hb
  simp only [List.mem_append, List.mem_cons, not_or] at hx hab
  obtain ⟨hxy, hxa, hxb, hxz⟩ := hx
  refine row_split.mpr ⟨hleft.frame ?_ ?_, ⟨update_self .., ?_⟩, ?_⟩
  · intro c hc
    rw [List.dropLast_concat] at hc
    have hca : c ≠ a := hdisj c hc a List.mem_cons_self
    have hcx : c ≠ x := fun heq => hxy (heq ▸ hc)
    rw [update_of_ne hca, update_of_ne hcx]
  · intro c hc
    have hcb : c ≠ b := by
      rintro rfl
      obtain hcy | hca := List.mem_append.mp (List.mem_of_mem_tail hc)
      · exact hdisj c hcy c (by simp) rfl
      · exact hab.1 (List.mem_singleton.mp hca).symm
    have hcx : c ≠ x := by
      rintro rfl
      obtain hcy | hca := List.mem_append.mp (List.mem_of_mem_tail hc)
      · exact hxy hcy
      · exact hxa (List.mem_singleton.mp hca)
    rw [update_of_ne hcb, update_of_ne hcx]
  · rw [update_of_ne hxb, update_self]
  · refine List.isChain_cons_cons.mpr ⟨⟨?_, update_self ..⟩, hright.frame ?_ ?_⟩
    · rw [update_of_ne hxa, update_self]
    · intro c hc
      have hmem := List.dropLast_subset _ hc
      have hca : c ≠ a := by
        rintro rfl
        obtain rfl | hcz := List.mem_cons.mp hmem
        · exact hab.1 rfl
        · exact hab.2 hcz
      have hcx : c ≠ x := by
        rintro rfl
        obtain rfl | hcz := List.mem_cons.mp hmem
        · exact hxb rfl
        · exact hxz hcz
      rw [update_of_ne hca, update_of_ne hcx]
    · intro c hc
      have hcb : c ≠ b := fun heq => hbz (heq ▸ hc)
      have hcx : c ≠ x := fun heq => hxz (heq ▸ hc)
      rw [update_of_ne hcb, update_of_ne hcx]

/-- From between its neighbours. -/
theorem Row.remove (h : Row next prev (ys ++ a::x::b::zs)) (hd : (ys ++ a::x::b::zs).Nodup) :
    Row (update (update next a (some b)) x none) (update (update prev b (some a)) x none) (ys ++ a::b::zs) := by
  obtain ⟨hleft, -, hrest⟩ := row_split.mp h
  obtain ⟨-, hright⟩ := List.isChain_cons_cons.mp hrest
  obtain ⟨hys, hdrest, hdisj⟩ := List.nodup_append.mp hd
  obtain ⟨ha, hdx⟩ := List.nodup_cons.mp hdrest
  obtain ⟨hx, hdb⟩ := List.nodup_cons.mp hdx
  obtain ⟨hbz, -⟩ := List.nodup_cons.mp hdb
  simp only [List.mem_cons, not_or] at ha hx
  refine row_split.mpr ⟨hleft.frame ?_ ?_, ⟨?_, ?_⟩, Row.frame hright ?_ ?_⟩
  · intro c hc
    rw [List.dropLast_concat] at hc
    have hca : c ≠ a := hdisj c hc a (by simp)
    have hcx : c ≠ x := hdisj c hc x (by simp)
    rw [update_of_ne hcx, update_of_ne hca]
  · intro c hc
    have hmem := List.mem_append.mp (List.mem_of_mem_tail hc)
    have hcx : c ≠ x := by
      rintro rfl
      obtain hcy | hca := hmem
      · exact hdisj c hcy c (by simp) rfl
      · exact ha.1 (List.mem_singleton.mp hca).symm
    have hcb : c ≠ b := by
      rintro rfl
      obtain hcy | hca := hmem
      · exact hdisj c hcy c (by simp) rfl
      · exact ha.2.1 (List.mem_singleton.mp hca).symm
    rw [update_of_ne hcx, update_of_ne hcb]
  · rw [update_of_ne ha.1, update_self]
  · rw [update_of_ne (Ne.symm hx.1), update_self]
  · intro c hc
    have hmem := List.mem_cons.mp (List.dropLast_subset _ hc)
    have hcx : c ≠ x := by
      rintro rfl
      exact hmem.elim hx.1 hx.2
    have hca : c ≠ a := by
      rintro rfl
      exact hmem.elim ha.2.1 ha.2.2
    rw [update_of_ne hcx, update_of_ne hca]
  · intro c hc
    have hcx : c ≠ x := fun heq => hx.2 (heq ▸ hc)
    have hcb : c ≠ b := fun heq => hbz (heq ▸ hc)
    rw [update_of_ne hcx, update_of_ne hcb]

end OS161.Rows
