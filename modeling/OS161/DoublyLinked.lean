import OS161.Slots

/-!
# Doubly linked cells in a store

A segment is a list of addresses with their values, such that the cells at
these addresses point at each other in both directions. Where a segment is cut
in two, only the pointers at the cut depend on the other half.
-/

set_option autoImplicit false

namespace OS161.DoublyLinked

open Function OS161.Slots

variable {α : Type*}

structure Cell (α : Type*) where
  prev : Option ℕ
  next : Option ℕ
  val : α
  deriving DecidableEq

def addrs (xs : List (ℕ × α)) : List ℕ := xs.map Prod.fst

/-- The first address, or what comes after the segment. -/
def front : List (ℕ × α) → Option ℕ → Option ℕ
  | [], n => n
  | x::_, _ => some x.1

/-- The last address, or what comes before the segment. -/
def back : List (ℕ × α) → Option ℕ → Option ℕ
  | [], p => p
  | x::xs, _ => back xs (some x.1)

/-- The cells of `xs` in order, between `p` and `n`. -/
def Segment (h : Store (Cell α)) : Option ℕ → List (ℕ × α) → Option ℕ → Prop
  | _, [], _ => True
  | p, x::xs, n => h.get x.1 = some ⟨p, front xs n, x.2⟩ ∧ Segment h (some x.1) xs n

/-- Following one of the pointers from `o` meets the addresses `xs`, and then
the end. -/
def Visits (h : Store (Cell α)) (dir : Cell α → Option ℕ) : Option ℕ → List ℕ → Prop
  | o, [] => o = none
  | o, x::xs => o = some x ∧ ∃ c, h.get x = some c ∧ Visits h dir (dir c) xs

variable {h h' : Store (Cell α)} {p n m : Option ℕ} {xs ys zs : List (ℕ × α)}

theorem front_append (xs ys : List (ℕ × α)) (n : Option ℕ) : front (xs++ys) n = front xs (front ys n) := by
  cases xs <;> rfl

theorem back_append (xs ys : List (ℕ × α)) (p : Option ℕ) : back (xs++ys) p = back ys (back xs p) := by
  induction xs generalizing p with
  | nil => rfl
  | cons x xs ih => exact ih (some x.1)

theorem back_mem {a : ℕ} (h : back xs p = some a) (hx : xs ≠ []) : a ∈ addrs xs := by
  induction xs generalizing p with
  | nil => exact absurd rfl hx
  | cons x xs ih =>
    cases xs with
    | nil =>
      have : x.1 = a := Option.some.inj h
      simp [addrs, this]
    | cons y ys => exact List.mem_cons_of_mem _ (ih (p := some x.1) h (by simp))

theorem back_ne_none (hx : xs ≠ []) : back xs p ≠ none := by
  induction xs generalizing p with
  | nil => exact absurd rfl hx
  | cons x xs ih =>
    cases xs with
    | nil => simp [back]
    | cons y ys => exact ih (p := some x.1) (by simp)

theorem segment_append : Segment h p (xs++ys) n ↔ Segment h p xs (front ys n) ∧ Segment h (back xs p) ys n := by
  induction xs generalizing p with
  | nil => simp [Segment, back]
  | cons x xs ih =>
    simp only [List.cons_append, Segment, ih, front_append, and_assoc]
    rfl

theorem segment_live {a : ℕ} (hs : Segment h p xs n) (ha : a ∈ addrs xs) : ∃ c, h.get a = some c := by
  induction xs generalizing p with
  | nil => cases ha
  | cons x xs ih =>
    rcases List.mem_cons.mp ha with rfl | hrest
    · exact ⟨_, hs.1⟩
    · exact ih hs.2 hrest

/-- Elsewhere the store may change. -/
theorem segment_frame (hs : Segment h p xs n) (hx : ∀ a ∈ addrs xs, h'.get a = h.get a) :
    Segment h' p xs n := by
  induction xs generalizing p with
  | nil => trivial
  | cons x xs ih =>
    refine ⟨?_, ih hs.2 (fun a ha => hx a (List.mem_cons_of_mem _ ha))⟩
    rw [hx x.1 (by simp [addrs]), hs.1]

/-- The first cell gets another cell before it. -/
theorem segment_front (hs : Segment h p xs n)
    (hx : ∀ a ∈ addrs xs, ∀ c, h.get a = some c →
      h'.get a = some (if front xs n = some a then { c with prev := m } else c))
    (hd : (addrs xs).Nodup) : Segment h' m xs n := by
  cases xs with
  | nil => trivial
  | cons x xs =>
    obtain ⟨hout, -⟩ := List.nodup_cons.mp hd
    refine ⟨?_, segment_frame hs.2 ?_⟩
    · rw [hx x.1 (by simp [addrs]) _ hs.1]
      simp [front]
    · intro a ha
      obtain ⟨c, hc⟩ := segment_live hs.2 ha
      have hne : x.1 ≠ a := by
        rintro rfl
        exact hout ha
      rw [hx a (List.mem_cons_of_mem _ ha) c hc, hc]
      simp [front, hne]

/-- The last cell gets another cell after it. -/
theorem segment_back (hs : Segment h p xs n)
    (hx : ∀ a ∈ addrs xs, ∀ c, h.get a = some c →
      h'.get a = some (if back xs p = some a then { c with next := m } else c))
    (hd : (addrs xs).Nodup) : Segment h' p xs m := by
  induction xs generalizing p with
  | nil => trivial
  | cons x xs ih =>
    obtain ⟨hout, hrest⟩ := List.nodup_cons.mp hd
    refine ⟨?_, ih hs.2 (fun a ha c hc => hx a (List.mem_cons_of_mem _ ha) c hc) hrest⟩
    rw [hx x.1 (by simp [addrs]) _ hs.1]
    cases xs with
    | nil => simp [back, front]
    | cons y ys =>
      have hne : back (y::ys) (some x.1) ≠ some x.1 := fun hb => hout (back_mem hb (by simp))
      rw [show back (x::y::ys) p = back (y::ys) (some x.1) from rfl, if_neg hne]
      rfl

theorem front_mem {a : ℕ} (h : front xs none = some a) : a ∈ addrs xs := by
  cases xs with
  | nil => cases h
  | cons x xs =>
    have : x.1 = a := Option.some.inj h
    simp [addrs, this]

/-- A new cell between two halves changes one pointer of each neighbour. -/
theorem segment_insert (ys zs : List (ℕ × α)) {x : ℕ} {v : α} (hs : Segment h none (ys++zs) none)
    (hd : (addrs (ys++zs)).Nodup) (hx : h'.get x = some ⟨back ys none, front zs none, v⟩)
    (hold : ∀ a ∈ addrs (ys++zs), ∀ c, h.get a = some c → h'.get a = some
      { c with
        next := if back ys none = some a then some x else c.next
        prev := if front zs none = some a then some x else c.prev }) :
    Segment h' none (ys++(x, v)::zs) none := by
  obtain ⟨hys, hzs⟩ := segment_append.mp hs
  simp only [addrs, List.map_append] at hd hold
  obtain ⟨hdy, hdz, hdisj⟩ := List.nodup_append.mp hd
  refine segment_append.mpr ⟨segment_back hys ?_ hdy, hx, segment_front hzs ?_ hdz⟩
  · intro a ha c hc
    have hnot : front zs none ≠ some a := fun hf => hdisj a ha a (front_mem hf) rfl
    rw [hold a (List.mem_append_left _ ha) c hc, if_neg hnot]
    split <;> rfl
  · intro a ha c hc
    have hnot : back ys none ≠ some a := by
      intro hb
      cases ys with
      | nil => cases hb
      | cons y ys => exact hdisj a (back_mem hb (by simp)) a ha rfl
    rw [hold a (List.mem_append_right _ ha) c hc, if_neg hnot]
    split <;> rfl

theorem visits_next (hs : Segment h p xs none) : Visits h Cell.next (front xs none) (addrs xs) := by
  induction xs generalizing p with
  | nil => rfl
  | cons x xs ih => exact ⟨rfl, _, hs.1, ih hs.2⟩

theorem visits_prev (hs : Segment h none xs n) : Visits h Cell.prev (back xs none) (addrs xs).reverse := by
  -- from the last cell back, so the induction takes cells off the end
  induction xs using List.reverseRecOn generalizing n with
  | nil => rfl
  | append_singleton xs x ih =>
    obtain ⟨hfirst, hlast, -⟩ := segment_append.mp hs
    rw [back_append, show addrs (xs++[x]) = addrs xs ++ [x.1] by simp [addrs], List.reverse_append]
    exact ⟨rfl, _, hlast, ih hfirst⟩

end OS161.DoublyLinked
