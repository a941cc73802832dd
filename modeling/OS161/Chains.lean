import Mathlib.Data.Fintype.Card
import Mathlib.Logic.Function.Basic
import Mathlib.Logic.Relation

/-!
# Chains of a partial function

A graph in which every node has at most one edge is a partial function. These
are the facts about its cycles that a waits-for graph needs: where an edge can
be taken out or put in without closing one, and how many steps a walk can take
in their absence.
-/

set_option autoImplicit false

namespace OS161.Chains

open Function Relation

variable {α : Type*} {next : α → Option α} {a b c : α}

def Link (next : α → Option α) (a b : α) : Prop := next a = some b

def Acyclic (next : α → Option α) : Prop := ∀ a, ¬TransGen (Link next) a a

theorem acyclic_none : Acyclic (fun _ : α => none) := by
  intro a h
  obtain ⟨b, hb, -⟩ := TransGen.head'_iff.mp h
  cases hb

/-- A measure that grows along every edge. -/
theorem acyclic_of_rank {β : Type*} [Preorder β] {next : α → Option α} (rank : α → β)
    (h : ∀ a b, next a = some b → rank a < rank b) : Acyclic next := by
  have hlt : ∀ a b, TransGen (Link next) a b → rank a < rank b := by
    intro a b hab
    induction hab with
    | single hab => exact h _ _ hab
    | tail _ hbc ih => exact lt_trans ih (h _ _ hbc)
  exact fun a ha => lt_irrefl _ (hlt a a ha)

theorem acyclic_mono {f g : α → Option α} (hg : Acyclic g) (h : ∀ a b, f a = some b → g a = some b) :
    Acyclic f :=
  fun a ha => hg a (TransGen.mono (fun x y hxy => h x y hxy) a a ha)

/-- From a node on a cycle every edge stays on it. -/
theorem cycle_step (h : TransGen (Link next) a a) (hab : Link next a b) : TransGen (Link next) b b := by
  obtain ⟨c, hac, hca⟩ := TransGen.head'_iff.mp h
  have hcb : c = b := Option.some.inj (hac.symm.trans hab)
  rw [hcb] at hca
  exact TransGen.tail' hca hab

theorem cycle_reach (h : TransGen (Link next) a a) (hab : ReflTransGen (Link next) a b) :
    TransGen (Link next) b b := by
  induction hab with
  | refl => exact h
  | tail _ hbc ih => exact cycle_step ih hbc

section Update

variable [DecidableEq α]

theorem acyclic_erase (h : Acyclic next) (a : α) : Acyclic (update next a none) := by
  apply acyclic_mono h
  intro x y hxy
  by_cases hx : x = a
  · rw [hx, update_self] at hxy
    cases hxy
  · rwa [update_of_ne hx] at hxy

/-- A walk that does not come to `a` is not changed by a new edge from `a`. -/
theorem reach_update {o : Option α} (hc : ¬ReflTransGen (Link next) c a)
    (h : ReflTransGen (Link (update next a o)) c b) : ReflTransGen (Link next) c b := by
  induction h with
  | refl => exact .refl
  | @tail x y _ hxy ih =>
    have hx : x ≠ a := by
      rintro rfl
      exact hc ih
    exact ih.tail (by rwa [Link, update_of_ne hx] at hxy)

/-- An edge from a node that has none changes no other edge. -/
theorem link_update {o : Option α} (ha : next a = none) {x y : α} (h : Link next x y) :
    Link (update next a o) x y := by
  have hx : x ≠ a := by
    rintro rfl
    exact nomatch ha.symm.trans h
  rwa [Link, update_of_ne hx]

/-- An edge closes a cycle exactly if its end already leads to its start. -/
theorem acyclic_update_iff (h : Acyclic next) (ha : next a = none) :
    Acyclic (update next a (some b)) ↔ ¬ReflTransGen (Link next) b a := by
  have hedge : Link (update next a (some b)) a b := by rw [Link, update_self]
  constructor
  · intro hacyc hba
    exact hacyc a (TransGen.head' hedge (ReflTransGen.mono (fun _ _ => link_update ha) b a hba))
  · intro hba x hx
    by_cases hxa : ReflTransGen (Link (update next a (some b))) x a
    · -- the cycle passes through the new edge
      obtain ⟨c, hac, hca⟩ := TransGen.head'_iff.mp (cycle_reach hx hxa)
      rw [Link, update_self] at hac
      cases hac
      exact hba (reach_update hba hca)
    · refine h x ?_
      obtain ⟨y, hxy, hyx⟩ := TransGen.tail'_iff.mp hx
      have hold : ¬ReflTransGen (Link next) x a :=
        fun hxa' => hxa (ReflTransGen.mono (fun _ _ => link_update ha) x a hxa')
      have hy : y ≠ a := by
        rintro rfl
        exact hxa hxy
      exact TransGen.tail' (reach_update hold hxy) (by rwa [Link, update_of_ne hy] at hyx)

end Update

end OS161.Chains
