import Mathlib.Data.List.Nodup
import Mathlib.Data.List.Perm.Basic

/-!
# Lists that share out a set

A family of lists is exact for a set if every member of the set is on exactly
one of the lists, there once, and nothing else is on any. Members that go from
one list to another one keep it so.
-/

set_option autoImplicit false

namespace OS161.Placement

variable {X T : Type*}

structure Exact (f : X → List T) (p : T → Prop) : Prop where
  nodup : ∀ x, (f x).Nodup
  unique : ∀ x y t, t ∈ f x → t ∈ f y → x = y
  covers : ∀ t, p t ↔ ∃ x, t ∈ f x

variable {f g : X → List T} {p q : T → Prop}

theorem Exact.reorder (h : Exact f p) (hg : ∀ z, (g z).Perm (f z)) : Exact g p := by
  constructor
  · intro z
    exact (hg z).nodup_iff.mpr (h.nodup z)
  · intro z w t hz hw
    exact h.unique z w t ((hg z).mem_iff.mp hz) ((hg w).mem_iff.mp hw)
  · intro t
    simp only [(hg _).mem_iff]
    exact h.covers t

theorem mem_pair {x y z : X} {t : T} (hz : z = x ∨ z = y) (ht : t ∈ f z) : t ∈ f x ∨ t ∈ f y := by
  obtain rfl | rfl := hz
  · exact .inl ht
  · exact .inr ht

/-- Members go back and forth between two of the lists. -/
theorem Exact.exchange (h : Exact f p) (x y : X) (hxy : x ≠ y)
    (hrest : ∀ z, z ≠ x → z ≠ y → g z = f z) (hperm : (g x ++ g y).Perm (f x ++ f y)) : Exact g p := by
  have hdisj : List.Disjoint (f x) (f y) := fun t hx hy => hxy (h.unique x y t hx hy)
  have hnd : (g x ++ g y).Nodup := hperm.nodup_iff.mpr (List.Nodup.append (h.nodup x) (h.nodup y) hdisj)
  have hmem : ∀ t, t ∈ g x ∨ t ∈ g y ↔ t ∈ f x ∨ t ∈ f y := by
    intro t
    simpa using hperm.mem_iff (a := t)
  -- a member of a third list was there before, and so on neither of the two
  have hthird : ∀ z w t, z ≠ x → z ≠ y → t ∈ g z → w = x ∨ w = y → t ∉ g w := by
    intro z w t hzx hzy hz hw hgw
    rw [hrest z hzx hzy] at hz
    obtain hx | hy := (hmem t).mp (mem_pair hw hgw)
    · exact hzx (h.unique z x t hz hx)
    · exact hzy (h.unique z y t hz hy)
  constructor
  · intro z
    by_cases hzx : z = x
    · exact hzx ▸ (List.nodup_append.mp hnd).1
    by_cases hzy : z = y
    · exact hzy ▸ (List.nodup_append.mp hnd).2.1
    rw [hrest z hzx hzy]
    exact h.nodup z
  · intro z w t hz hw
    by_cases hzp : z = x ∨ z = y
    · by_cases hwp : w = x ∨ w = y
      · have hno := List.disjoint_of_nodup_append hnd (a := t)
        obtain rfl | rfl := hzp <;> obtain rfl | rfl := hwp
        · rfl
        · exact absurd hw (hno hz)
        · exact absurd hz (hno hw)
        · rfl
      · push Not at hwp
        exact absurd hz (hthird w z t hwp.1 hwp.2 hw hzp)
    · push Not at hzp
      by_cases hwp : w = x ∨ w = y
      · exact absurd hw (hthird z w t hzp.1 hzp.2 hz hwp)
      · push Not at hwp
        rw [hrest z hzp.1 hzp.2] at hz
        rw [hrest w hwp.1 hwp.2] at hw
        exact h.unique z w t hz hw
  · intro t
    rw [h.covers]
    constructor
    · rintro ⟨z, hz⟩
      by_cases hzp : z = x ∨ z = y
      · obtain hx | hy := (hmem t).mpr (mem_pair hzp hz)
        · exact ⟨x, hx⟩
        · exact ⟨y, hy⟩
      · push Not at hzp
        exact ⟨z, hrest z hzp.1 hzp.2 ▸ hz⟩
    · rintro ⟨z, hz⟩
      by_cases hzp : z = x ∨ z = y
      · obtain hx | hy := (hmem t).mp (mem_pair hzp hz)
        · exact ⟨x, hx⟩
        · exact ⟨y, hy⟩
      · push Not at hzp
        exact ⟨z, hrest z hzp.1 hzp.2 ▸ hz⟩

/-- A new member on one of the lists. -/
theorem Exact.insert (h : Exact f p) (x : X) (t : T) (hnew : ¬p t) (hrest : ∀ z, z ≠ x → g z = f z)
    (hperm : (g x).Perm (t :: f x)) (hq : ∀ u, q u ↔ p u ∨ u = t) : Exact g q := by
  have hout : ∀ z, t ∉ f z := fun z hz => hnew ((h.covers t).mpr ⟨z, hz⟩)
  have hmem : ∀ z u, u ∈ g z ↔ u ∈ f z ∨ z = x ∧ u = t := by
    intro z u
    by_cases hz : z = x
    · subst hz
      rw [hperm.mem_iff, List.mem_cons]
      tauto
    · simp [hrest z hz, hz]
  constructor
  · intro z
    by_cases hz : z = x
    · subst hz
      exact hperm.nodup_iff.mpr (List.nodup_cons.mpr ⟨hout z, h.nodup z⟩)
    · rw [hrest z hz]
      exact h.nodup z
  · intro z w u hz hw
    obtain hz | ⟨rfl, rfl⟩ := (hmem z u).mp hz <;> obtain hw | ⟨hw, hu⟩ := (hmem w u).mp hw
    · exact h.unique z w u hz hw
    · exact absurd (hu ▸ hz) (hout z)
    · exact absurd hw (hout w)
    · exact hw.symm
  · intro u
    rw [hq, h.covers]
    simp only [hmem, exists_or, exists_eq_left]

/-- A member leaves its list and the set. -/
theorem Exact.erase (h : Exact f p) (x : X) (t : T) (hrest : ∀ z, z ≠ x → g z = f z)
    (hperm : (f x).Perm (t :: g x)) (hq : ∀ u, q u ↔ p u ∧ u ≠ t) : Exact g q := by
  have hnd := List.nodup_cons.mp (hperm.nodup_iff.mp (h.nodup x))
  have hin : t ∈ f x := hperm.mem_iff.mpr List.mem_cons_self
  have hmem : ∀ z u, u ∈ g z ↔ u ∈ f z ∧ u ≠ t := by
    intro z u
    by_cases hz : z = x
    · subst hz
      rw [hperm.mem_iff, List.mem_cons]
      constructor
      · intro hu
        exact ⟨.inr hu, fun hut => hnd.1 (hut ▸ hu)⟩
      · rintro ⟨hu | hu, hne⟩
        · exact absurd hu hne
        · exact hu
    · rw [hrest z hz]
      constructor
      · intro hu
        refine ⟨hu, ?_⟩
        rintro rfl
        exact hz (h.unique z x u hu hin)
      · exact fun hu => hu.1
  constructor
  · intro z
    by_cases hz : z = x
    · exact hz ▸ hnd.2
    · rw [hrest z hz]
      exact h.nodup z
  · intro z w u hz hw
    exact h.unique z w u ((hmem z u).mp hz).1 ((hmem w u).mp hw).1
  · intro u
    rw [hq, h.covers]
    simp only [hmem, exists_and_right]

end OS161.Placement
