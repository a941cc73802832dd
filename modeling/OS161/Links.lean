import Mathlib.Data.List.Nodup
import Mathlib.Logic.Function.Basic

/-!
# Singly linked lists in memory

The nodes of such a list are not values but places: each holds the place of
its successor, or nothing. A walk along the links spells out a list of nodes,
and it is these lists that pushing and unlinking are about.
-/

set_option autoImplicit false

namespace OS161.Links

open Function

variable {α : Type*} {next link : α → Option α} {o : Option α} {a b : α} {l m : List α}

/-- The walk from `o` along `next` passes the nodes of the list and ends after them. -/
def Path (next : α → Option α) : Option α → List α → Prop
  | o, [] => o = none
  | o, a::l => o = some a ∧ Path next (next a) l

@[simp] theorem path_nil : Path next o [] ↔ o = none := Iff.rfl

@[simp] theorem path_cons : Path next o (a::l) ↔ o = some a ∧ Path next (next a) l := Iff.rfl

theorem Path.unique (hl : Path next o l) (hm : Path next o m) : l = m := by
  induction l generalizing o m with
  | nil =>
    cases m with
    | nil => rfl
    | cons b m => exact nomatch hl.symm.trans hm.1
  | cons a l ih =>
    cases m with
    | nil => exact nomatch hm.symm.trans hl.1
    | cons b m =>
      have hab : a = b := Option.some.inj (hl.1.symm.trans hm.1)
      subst hab
      rw [ih hl.2 hm.2]

theorem Path.tail {k : List α} (h : Path next o (k ++ a::l)) : Path next (next a) l := by
  induction k generalizing o with
  | nil => exact h.2
  | cons c k ih => exact ih h.2

/-- A walk that comes to an end meets no node twice. -/
theorem Path.nodup (h : Path next o l) : l.Nodup := by
  induction l generalizing o with
  | nil => exact List.nodup_nil
  | cons a l ih =>
    refine List.nodup_cons.mpr ⟨?_, ih h.2⟩
    intro ha
    obtain ⟨k, m, hkm⟩ := List.append_of_mem ha
    have htail : Path next (next a) m := Path.tail (hkm ▸ h.2)
    have hlen := congrArg List.length (h.2.unique htail)
    simp only [hkm, List.length_append, List.length_cons] at hlen
    omega

theorem Path.congr (h : Path next o l) (hlink : ∀ a ∈ l, link a = next a) : Path link o l := by
  induction l generalizing o with
  | nil => exact h
  | cons a l ih =>
    refine ⟨h.1, ?_⟩
    rw [hlink a List.mem_cons_self]
    exact ih h.2 (fun b hb => hlink b (List.mem_cons_of_mem _ hb))

section Update

variable [DecidableEq α]

theorem Path.push (h : Path next o l) (ha : a ∉ l) : Path (update next a o) (some a) (a::l) := by
  refine ⟨rfl, ?_⟩
  rw [update_self]
  refine h.congr (fun b hb => update_of_ne ?_ _ _)
  rintro rfl
  exact ha hb

/-- The link that holds the successor: that of the base, or that of a node. -/
def follow (next : α → Option α) (base : Option α) : Option α → Option α
  | none => base
  | some g => next g

/--
Looks for the link that leads to `a`, from the link `guy` on. The fuel bounds
the walk; a walk that ends without meeting `a` finds nothing.
-/
def seek (next : α → Option α) (base : Option α) (a : α) : ℕ → Option α → Option (Option (Option α))
  | 0, _ => none
  | n + 1, guy => match follow next base guy with
    | none => some none
    | some c => if c = a then some (some guy) else seek next base a n (some c)

/-- What unlinking leaves: the link found now leads where the links of `a` did. -/
structure Unlinked (next link : α → Option α) (base first : Option α) (a : α) (guy : Option α) : Prop where
  found : follow link first guy = next a
  rest : ∀ b, guy ≠ some b → link b = next b
  start : guy ≠ none → first = base

theorem seek_path {base guy : Option α} {n : ℕ} (h : Path next (follow next base guy) l)
    (hg : ∀ g, guy = some g → g ∉ l) (hn : l.length < n) (ha : a ∈ l) :
    ∃ g, seek next base a n guy = some (some g) ∧ (g = guy ∨ ∃ c ∈ l, g = some c) ∧
      ∀ link first, Unlinked next link base first a g → Path link (follow link first guy) (l.erase a) := by
  induction l generalizing guy n with
  | nil => cases ha
  | cons c l ih =>
    obtain ⟨n, rfl⟩ : ∃ k, n = k + 1 := ⟨n - 1, by simp only [List.length_cons] at hn; omega⟩
    have hnd := List.nodup_cons.mp h.nodup
    by_cases hca : c = a
    · subst hca
      refine ⟨guy, by simp [seek, h.1], .inl rfl, ?_⟩
      intro link first hu
      rw [List.erase_cons_head, hu.found]
      refine h.2.congr (fun b hb => hu.rest b ?_)
      rintro rfl
      exact hg b rfl (List.mem_cons_of_mem _ hb)
    · have hal : a ∈ l := (List.mem_cons.mp ha).resolve_left (fun h => hca h.symm)
      have hc : ∀ g, some c = some g → g ∉ l := by
        rintro g ⟨⟩
        exact hnd.1
      have htail : Path next (follow next base (some c)) l := h.2
      obtain ⟨g, hseek, hwhere, hpath⟩ := ih htail hc (Nat.lt_of_succ_lt_succ hn) hal
      refine ⟨g, by simp [seek, h.1, hca, hseek], .inr ?_, ?_⟩
      · obtain rfl | ⟨d, hd, rfl⟩ := hwhere
        · exact ⟨c, List.mem_cons_self, rfl⟩
        · exact ⟨d, List.mem_cons_of_mem _ hd, rfl⟩
      · intro link first hu
        -- the link found is further on, so the one at hand still leads to `c`
        have hguy : follow link first guy = some c := by
          rw [← h.1]
          cases guy with
          | none =>
            refine hu.start ?_
            rintro rfl
            obtain hc | ⟨d, _, hd⟩ := hwhere
            · cases hc
            · cases hd
          | some e =>
            refine hu.rest e ?_
            rintro rfl
            obtain hc | ⟨d, hd, hde⟩ := hwhere
            · exact hg e rfl (Option.some.inj hc ▸ List.mem_cons_self)
            · exact hg e rfl (Option.some.inj hde ▸ List.mem_cons_of_mem _ hd)
        rw [List.erase_cons_tail (by simpa using hca)]
        exact ⟨hguy, hpath link first hu⟩

/-- The search that starts at the base. -/
theorem seek_path_base {base : Option α} {n : ℕ} (h : Path next base l) (hn : l.length < n) (ha : a ∈ l) :
    ∃ g, seek next base a n none = some (some g) ∧ (g = none ∨ ∃ c ∈ l, g = some c) ∧
      ∀ link first, Unlinked next link base first a g → Path link first (l.erase a) :=
  have hbase : Path next (follow next base none) l := h
  seek_path hbase (fun _ hg => nomatch hg) hn ha

end Update

end OS161.Links
