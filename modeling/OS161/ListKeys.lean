import OS161.ConcurrentList
import OS161.Runs

/-!
# The order of the keys of a list

`linked_list_insert` looks for the place of a key, `linked_list_prepend` takes
one less than the first. Both keep the keys in order, except that there is
nothing less than the least machine integer: the key of an element prepended
there is the greatest one.
-/

set_option autoImplicit false

namespace OS161.ListKeys

open OS161.Slots OS161.DoublyLinked OS161.ConcurrentList OS161.Runs

variable {α : Type}

/-- From first to last the keys do not decrease. -/
def InOrder (xs : List (Item α)) : Prop := xs.Pairwise (fun x y => x.key ≤ y.key)

/-- The first key is less than all others. -/
def LeastFirst (xs : List (Item α)) : Prop := ∀ x ys, xs = x::ys → ∀ y ∈ ys, x.key < y.key

/-- After every operation the keys are in order, and those of an element that
has just been prepended is less than all others. -/
def KeepsOrder (rounds : ℕ) (heap : Heap α) (ops : List (Op α)) : Prop :=
  ∀ before, before <+: ops → ∃ rs l items nodes, run rounds before (linkedListCreate heap) = .ok (rs, l) ∧
    WellLinked l items nodes ∧ InOrder items ∧
    ∀ data, before.getLast? = some (.prepend data) → LeastFirst items

/-- Nothing is prepended to the least key there is. -/
def RoomBelow (op : Op α) (xs : List (Item α)) : Prop :=
  match op, xs with
  | .prepend _, x::_ => x.key ≠ Int32.minValue
  | _, _ => True

instance decidableRoomBelow (op : Op α) (xs : List (Item α)) : Decidable (RoomBelow op xs) :=
  match op, xs with
  | .prepend _, x::_ => inferInstanceAs (Decidable (x.key ≠ Int32.minValue))
  | .prepend _, [] => isTrue trivial
  | .insert _ _, _ => isTrue trivial
  | .removeHead _, _ => isTrue trivial

/-- The list as it is meant, as a machine. -/
def next (op : Op α) (xs : List (Item α)) : Except Empty (List (Item α)) := .ok (absStep op xs).2

variable {xs items items' : List (Item α)} {nodes nodes' : List ℕ} {l : LinkedList α} {ops : List (Op α)}

theorem key_pred (k : Int32) : k-1 ≤ k ↔ k ≠ Int32.minValue := by
  rw [Int32.le_iff_toInt_le, ne_eq, ← Int32.toInt_inj, Int32.toInt_sub, Int32.toInt_minValue]
  have hlow := k.le_toInt
  have hhigh := k.toInt_lt
  have hone : (1 : Int32).toInt = 1 := rfl
  rw [hone, Int.bmod_def]
  omega

theorem key_pred_lt {k : Int32} (h : k ≠ Int32.minValue) : k-1 < k := by
  apply Int32.lt_of_le_of_ne ((key_pred k).mpr h)
  intro heq
  have hle := congrArg Int32.toInt heq
  have hone : (1 : Int32).toInt = 1 := rfl
  rw [Int32.toInt_sub, hone, Int.bmod_def] at hle
  have hlow := k.le_toInt
  have hhigh := k.toInt_lt
  omega

theorem inOrder_prepend {x : Item α} {data : Option α} (h : InOrder (x::xs)) :
    InOrder (⟨x.key-1, data⟩::x::xs) ↔ x.key ≠ Int32.minValue := by
  rw [← key_pred]
  constructor
  · intro hall
    exact (List.pairwise_cons.mp hall).1 x List.mem_cons_self
  · intro hpred
    apply List.pairwise_cons.mpr
    constructor
    · intro y hy
      obtain rfl | hy := List.mem_cons.mp hy
      · exact hpred
      · exact Int32.le_trans hpred ((List.pairwise_cons.mp h).1 y hy)
    · exact h

theorem inOrder_insert (key : Int32) (data : Option α) (h : InOrder xs) :
    InOrder (xs.takeWhile (·.key < key) ++ ⟨key, data⟩::xs.dropWhile (·.key < key)) := by
  induction xs with
  | nil => simp [InOrder]
  | cons x xs ih =>
    obtain ⟨hx, hxs⟩ := List.pairwise_cons.mp h
    by_cases hlt : x.key < key
    · rw [List.takeWhile_cons_of_pos (by simpa using hlt), List.dropWhile_cons_of_pos (by simpa using hlt),
        List.cons_append]
      apply List.pairwise_cons.mpr
      constructor
      · intro y hy
        rw [List.mem_append, List.mem_cons] at hy
        obtain hy | rfl | hy := hy
        · exact hx y (List.takeWhile_subset _ hy)
        · exact Int32.le_of_lt hlt
        · exact hx y (List.dropWhile_subset _ hy)
      · exact ih hxs
    · rw [List.takeWhile_cons_of_neg (by simpa using hlt), List.dropWhile_cons_of_neg (by simpa using hlt)]
      have hle : key ≤ x.key := Int32.not_lt.mp hlt
      apply List.pairwise_cons.mpr
      constructor
      · intro y hy
        obtain rfl | hy := List.mem_cons.mp hy
        · exact hle
        · exact Int32.le_trans hle (hx y hy)
      · exact h

/-- An operation keeps the order exactly if there is room for it. -/
theorem inOrder_step (op : Op α) (h : InOrder xs) : RoomBelow op xs ↔ InOrder (absStep op xs).2 := by
  cases op with
  | prepend data =>
    cases xs with
    | nil => simp [RoomBelow, absStep, InOrder]
    | cons x xs => exact (inOrder_prepend h).symm
  | insert key data =>
    simp only [RoomBelow, true_iff]
    exact inOrder_insert key data h
  | removeHead wantKey =>
    cases xs with
    | nil => simp [RoomBelow, absStep, InOrder]
    | cons x xs =>
      simp only [RoomBelow, true_iff]
      exact (List.pairwise_cons.mp h).2

/-- What has been prepended where there is room comes strictly first. -/
theorem leastFirst_prepend {data : Option α} (h : InOrder xs) (hroom : RoomBelow (.prepend data) xs) :
    LeastFirst (absStep (.prepend data) xs).2 := by
  cases xs with
  | nil =>
    rintro x ys ⟨⟩ y hy
    cases hy
  | cons x xs =>
    rintro z ys ⟨⟩ y hy
    have hlt : x.key-1 < x.key := key_pred_lt hroom
    obtain rfl | hy := List.mem_cons.mp hy
    · exact hlt
    · exact Int32.lt_of_lt_of_le hlt ((List.pairwise_cons.mp h).1 y hy)

theorem run_next (ops : List (Op α)) (xs : List (Item α)) : Runs.run next ops xs = .ok (absRun ops xs).2 := by
  induction ops generalizing xs with
  | nil => rfl
  | cons op ops ih => exact ih _

theorem visits_unique {h : Heap α} {dir : Node α → Option ℕ} {o : Option ℕ} (hn : Visits h dir o nodes)
    (hn' : Visits h dir o nodes') : nodes = nodes' := by
  induction nodes generalizing o nodes' with
  | nil =>
    cases nodes' with
    | nil => rfl
    | cons y ys =>
      have hnone : o = none := hn
      rw [hnone] at hn'
      cases hn'.1
  | cons x xs ih =>
    cases nodes' with
    | nil =>
      have hnone : o = none := hn'
      rw [hnone] at hn
      cases hn.1
    | cons y ys =>
      obtain ⟨rfl, c, hc, hrest⟩ := hn
      obtain ⟨hxy, c', hc', hrest'⟩ := hn'
      cases hxy
      rw [hc] at hc'
      cases hc'
      rw [ih hrest hrest']

/-- A list holds one sequence of items. -/
theorem wellLinked_unique (h : WellLinked l items nodes) (h' : WellLinked l items' nodes') : items = items' := by
  have hnodes := visits_unique h.forward h'.forward
  have hmap : items.map some = items'.map some := by
    rw [← h.contents, ← h'.contents, hnodes]
  exact List.map_injective_iff.mpr (Option.some_injective _) hmap

/-- Every history of operations keeps the order exactly if nothing is ever
prepended to the least machine integer. -/
theorem keepsOrder_iff (heap : Heap α) (ops : List (Op α)) (rounds : ℕ) (hr : ops.length ≤ rounds) :
    KeepsOrder rounds heap ops ↔ Guarded next RoomBelow ops [] := by
  have hempty : InOrder ([] : List (Item α)) := List.Pairwise.nil
  have hprefixes : Guarded next RoomBelow ops [] ↔
      ∀ before, before <+: ops → ∀ t, Runs.run next before [] = .ok t → InOrder t := by
    apply guarded_iff_prefixes
    · intro op xs xs' hi hs
      cases hs
      exact inOrder_step op hi
    · intro op xs e _ hs
      cases hs
    · exact hempty
  have hrounds : ∀ before, before <+: ops → before.length ≤ rounds :=
    fun before hb => Nat.le_trans hb.length_le hr
  constructor
  · intro hkeeps
    apply hprefixes.mpr
    intro before hbefore t ht
    obtain ⟨rs, l, items, nodes, hrun, hlinked, horder, -⟩ := hkeeps before hbefore
    obtain ⟨l', nodes', hrun', hlinked'⟩ := run_refines heap before rounds (hrounds before hbefore)
    rw [hrun] at hrun'
    cases hrun'
    rw [run_next] at ht
    cases ht
    rw [wellLinked_unique hlinked' hlinked]
    exact horder
  · intro hguarded before hbefore
    obtain ⟨l, nodes, hrun, hlinked⟩ := run_refines heap before rounds (hrounds before hbefore)
    have horder : InOrder (absRun before []).2 := hprefixes.mp hguarded before hbefore _ (run_next before [])
    refine ⟨_, l, _, nodes, hrun, hlinked, horder, ?_⟩
    intro data hlast
    obtain ⟨earlier, rfl⟩ : ∃ earlier, before = earlier ++ [.prepend data] :=
      ⟨before.dropLast, (List.dropLast_append_getLast? _ hlast).symm⟩
    obtain ⟨later, rfl⟩ := hbefore
    have hsplit := (guarded_append.mp (guarded_append.mp hguarded).1).2 _ (run_next earlier [])
    have hfirst : earlier <+: earlier ++ [.prepend data] ++ later := by
      rw [List.append_assoc]
      exact List.prefix_append _ _
    have hbelow := hprefixes.mp hguarded earlier hfirst _ (run_next earlier [])
    have hstep : (absRun (earlier ++ [.prepend data]) []).2 = (absStep (.prepend data) (absRun earlier []).2).2 := by
      have hone := run_next (earlier ++ [.prepend data]) []
      rw [run_append, run_next] at hone
      exact (Except.ok.inj hone).symm
    rw [hstep]
    exact leastFirst_prepend hbelow hsplit.1

theorem negative_keeps : KeepsOrder 4 Store.empty
    [.prepend (some 1), .prepend (some 2), .insert (-7) (some 3), .prepend (some 4)] :=
  (keepsOrder_iff (α := ℕ) Store.empty _ 4 (by decide)).mpr (by decide)

/-- The least key, and an element prepended to it: the keys from first to last
are the greatest and the least. -/
theorem least_overflows : (absRun [.insert Int32.minValue (some 1), .prepend (some 2)] []).2 =
      [⟨Int32.maxValue, some 2⟩, ⟨Int32.minValue, some 1⟩] ∧
    ¬KeepsOrder (α := ℕ) 2 Store.empty [.insert Int32.minValue (some 1), .prepend (some 2)] := by
  refine ⟨by decide, ?_⟩
  intro hkeeps
  obtain ⟨rs, l, items, nodes, hrun, hlinked, horder, -⟩ := hkeeps _ List.prefix_rfl
  obtain ⟨l', nodes', hrun', hlinked'⟩ := run_refines (α := ℕ) Store.empty
    [.insert Int32.minValue (some 1), .prepend (some 2)] 2 (by decide)
  rw [hrun] at hrun'
  cases hrun'
  rw [wellLinked_unique hlinked hlinked'] at horder
  have hle : Int32.maxValue ≤ Int32.minValue := (List.pairwise_cons.mp horder).1 _ List.mem_cons_self
  revert hle
  decide

end OS161.ListKeys
