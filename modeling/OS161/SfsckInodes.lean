import Mathlib.Data.List.Sort
import OS161.Sfsck

/-!
# The inode table of sfsck

Inodes are added in the order in which they are found, each once. The table is
then sorted by their numbers, and from there on an inode is looked up by binary
search.
-/

set_option autoImplicit false

namespace OS161.SfsckInodes

open OS161.Aborts OS161.Sfsck

/-- What is relied on of `qsort`. -/
structure Qsort where
  sort : {α : Type} → (α → α → Bool) → List α → List α
  perm : ∀ {α : Type} (le : α → α → Bool) (l : List α), (sort le l).Perm l
  sorted : ∀ {α : Type} (le : α → α → Bool), (∀ a b c, le a b = true → le b c = true → le a c = true) →
    (∀ a b, le a b = true ∨ le b a = true) → ∀ l : List α, (sort le l).Pairwise (fun a b => le a b = true)

/-- The size of an entry, and of the memory that a process can have. -/
def inodeinfoSize : ℕ := 16
def userMemory : ℕ := 2^31

/-- The size that the table grows to. -/
def newmax (maxinodes : ℕ) : ℕ := if maxinodes = 0 then 4 else maxinodes * 2

-- a table that takes all memory there is cannot be had, so that its size in bytes never wraps around
/-- The table grows to twice its size when it is full. -/
def inodeAddtable (ino type : ℕ) : Check Unit := do
  let w ← get
  require (w.inodes.length ≤ w.maxinodes) .assertion
  onlyIf (w.inodes.length = w.maxinodes) (do
    require (newmax w.maxinodes * inodeinfoSize < userMemory) .memory
    domalloc
    modify fun w => { w with maxinodes := newmax w.maxinodes })
  modify fun w => { w with inodes := w.inodes ++ [⟨ino, 0, false, type⟩], inodesSorted := false }

/-- Whether the inode had been added before. -/
def inodeAdd (ino type : ℕ) : Check Bool := do
  let w ← get
  match w.inodes.find? (fun inf => inf.ino == ino) with
  | some inf => do
    require (inf.linkcount = 0) .assertion
    require (inf.type = type) .assertion
    pure true
  | none => do
    inodeAddtable ino type
    pure false

-- `inode_compare` asserts that no two entries have the same number; none have
def inodeSorttable (q : Qsort) : Check Unit :=
  modify fun w => { w with inodes := q.sort (fun a b => decide (a.ino ≤ b.ino)) w.inodes, inodesSorted := true }

/-- The loop of `inode_find`, which returns an index. -/
def bisect (inodes : List Inodeinfo) (ino : ℕ) : (fuel min max : ℕ) → Check ℕ
  | 0, _, _ => throw .unfinished
  | fuel+1, min, max => do
    require (min ≤ max) .assertion
    require (min ≠ max) .notFound
    let i := min + (max - min) / 2
    match inodes[i]? with
    | none => throw .overrun
    | some inf =>
      if inf.ino < ino then bisect inodes ino fuel (i+1) max
      else if ino < inf.ino then bisect inodes ino fuel min i
      else pure i

def inodeFind (ino : ℕ) : Check ℕ := do
  let w ← get
  require (w.inodesSorted = true) .assertion
  require (0 < w.inodes.length) .assertion
  bisect w.inodes ino (w.inodes.length + 1) 0 w.inodes.length

/-- A change of an entry of the table. -/
def setInode (i : ℕ) (g : Inodeinfo → Inodeinfo) (w : World) : World := { w with inodes := w.inodes.modify i g }

/-- The entry that has been looked up. -/
def entryAt (i : ℕ) : Check Inodeinfo := do
  let w ← get
  match w.inodes[i]? with
  | none => throw .overrun
  | some inf => pure inf

def marked (inf : Inodeinfo) : Inodeinfo := { inf with visited := true }

def linkCounted (inf : Inodeinfo) : Inodeinfo := { inf with linkcount := inf.linkcount + 1 }

/-- Whether the directory had been visited before. -/
def inodeVisitdir (ino : ℕ) : Check Bool := do
  let i ← inodeFind ino
  let inf ← entryAt i
  require (inf.type = SFS_TYPE_DIR) .wrongType
  require (inf.linkcount = 0) .assertion
  if inf.visited = true then pure true
  else do
    modify (setInode i marked)
    pure false

def inodeAddlink (ino : ℕ) : Check Unit := do
  let i ← inodeFind ino
  let inf ← entryAt i
  require (inf.type = SFS_TYPE_FILE) .wrongType
  require (inf.visited = false) .assertion
  modify (setInode i linkCounted)

variable {w : World} {ino type : ℕ} {inodes : List Inodeinfo} {r : Fatal → Prop}

/-- The numbers of the inodes in the table. -/
def known (w : World) : List ℕ := w.inodes.map (·.ino)

/-- The entries of a sorted table before another one have smaller numbers. -/
theorem sorted_lt (hsorted : inodes.Pairwise (fun a b => a.ino < b.ino)) {i j : ℕ} {a b : Inodeinfo} (hij : i < j)
    (ha : inodes[i]? = some a) (hb : inodes[j]? = some b) : a.ino < b.ino := by
  obtain ⟨hi, rfl⟩ := List.getElem?_eq_some_iff.mp ha
  obtain ⟨hj, rfl⟩ := List.getElem?_eq_some_iff.mp hb
  exact List.pairwise_iff_getElem.mp hsorted i j hi hj hij

-- the induction is on the fuel; what is looked for can only lie between `min` and `max`
/-- The search ends with an entry for the inode, or at a place where there is none. -/
theorem bisect_ends {fuel min max : ℕ} (hmin : min ≤ max) (hmax : max ≤ inodes.length) (hfuel : max - min < fuel) :
    Ends (fun e => e = .notFound ∧ (inodes.Pairwise (fun a b => a.ino < b.ino) →
        ∀ j inf, min ≤ j → j < max → inodes[j]? = some inf → inf.ino ≠ ino))
      (bisect inodes ino fuel min max) w
      (fun i w' => w' = w ∧ ∃ inf, inodes[i]? = some inf ∧ inf.ino = ino) := by
  induction fuel generalizing min max with
  | zero => exact absurd hfuel (Nat.not_lt_zero _)
  | succ fuel ih =>
    rw [bisect, ends_bind, ends_require]
    refine ⟨fun _ => ?_, fun h => absurd hmin h⟩
    rw [ends_bind, ends_require]
    refine ⟨fun hne => ?_, fun heq => ⟨rfl, fun _ j inf h₁ h₂ => ?_⟩⟩
    · have hlt : min + (max - min) / 2 < max := by omega
      have hindex : min + (max - min) / 2 < inodes.length := by omega
      have hat : inodes[min + (max - min) / 2]? = some inodes[min + (max - min) / 2] := List.getElem?_eq_getElem hindex
      simp only [hat]
      split_ifs with hless hmore
      · apply (ih (by omega) hmax (by omega)).mono _ (fun _ _ => id)
        rintro e ⟨he, hnone⟩
        refine ⟨he, fun hsorted j inf h₁ h₂ hj hino => ?_⟩
        by_cases hlow : min + (max - min) / 2 < j
        · exact hnone hsorted j inf hlow h₂ hj hino
        · obtain hbefore | rfl := Nat.lt_or_eq_of_le (Nat.le_of_not_lt hlow)
          · have := sorted_lt hsorted hbefore hj hat
            omega
          · rw [hat] at hj
            cases hj
            omega
      · apply (ih (by omega) (by omega) (by omega)).mono _ (fun _ _ => id)
        rintro e ⟨he, hnone⟩
        refine ⟨he, fun hsorted j inf h₁ h₂ hj hino => ?_⟩
        by_cases hlow : j < min + (max - min) / 2
        · exact hnone hsorted j inf h₁ hlow hj hino
        · obtain hafter | rfl := Nat.lt_or_eq_of_le (Nat.le_of_not_lt hlow)
          · have := sorted_lt hsorted hafter hat hj
            omega
          · rw [hat] at hj
            cases hj
            omega
      · exact ends_pure.mpr ⟨rfl, _, hat, by omega⟩
    · omega

/-- The table is sorted by the numbers of the inodes. -/
def Sorted (w : World) : Prop :=
  w.inodesSorted = true ∧ w.inodes.Pairwise (fun a b => a.ino < b.ino)

theorem inodeFind_ends : Ends (fun e => e = .assertion ∧ (w.inodesSorted ≠ true ∨ w.inodes = []) ∨
      e = .notFound ∧ (Sorted w → ino ∉ known w)) (inodeFind ino) w
    (fun i w' => w' = w ∧ ∃ inf, w.inodes[i]? = some inf ∧ inf.ino = ino) := by
  rw [inodeFind, ends_bind, ends_get, ends_bind, ends_require]
  refine ⟨fun _ => ?_, fun hno => .inl ⟨rfl, .inl hno⟩⟩
  rw [ends_bind, ends_require]
  refine ⟨fun _ => ?_, fun hno => .inl ⟨rfl, .inr ?_⟩⟩
  · apply (bisect_ends (Nat.zero_le _) (Nat.le_refl _) (Nat.lt_succ_self _)).mono _ (fun _ _ => id)
    rintro e ⟨he, hnone⟩
    refine .inr ⟨he, fun hsorted hmem => ?_⟩
    obtain ⟨inf, hinf, hino⟩ := List.mem_map.mp hmem
    obtain ⟨j, hj, rfl⟩ := List.mem_iff_getElem.mp hinf
    exact hnone hsorted.2 j _ (Nat.zero_le j) hj (List.getElem?_eq_getElem hj) hino
  · exact List.length_eq_zero_iff.mp (Nat.eq_zero_of_not_pos hno)

/-- The table has the inode, with this type. -/
def Has (w : World) (ino type : ℕ) : Prop := ∃ inf ∈ w.inodes, inf.ino = ino ∧ inf.type = type

theorem Has.known (h : Has w ino type) : ino ∈ known w := by
  obtain ⟨inf, hmem, rfl, -⟩ := h
  exact List.mem_map_of_mem hmem

theorem unique_of_sorted (hsorted : Sorted w) {i j : ℕ} {a b : Inodeinfo} (ha : w.inodes[i]? = some a)
    (hb : w.inodes[j]? = some b) (hsame : a.ino = b.ino) : a = b := by
  obtain hlt | rfl | hlt := Nat.lt_trichotomy i j
  · exact absurd hsame (Nat.ne_of_lt (sorted_lt hsorted.2 hlt ha hb))
  · exact Option.some.inj (ha.symm.trans hb)
  · exact absurd hsame.symm (Nat.ne_of_lt (sorted_lt hsorted.2 hlt hb ha))

/-- The entry that is found has the type that the table has for the inode. -/
theorem Has.type_eq (h : Has w ino type) (hsorted : Sorted w) {i : ℕ} {inf : Inodeinfo}
    (hat : w.inodes[i]? = some inf) (hino : inf.ino = ino) : inf.type = type := by
  obtain ⟨inf', hmem, hino', htype⟩ := h
  obtain ⟨j, hj, rfl⟩ := List.mem_iff_getElem.mp hmem
  rw [unique_of_sorted hsorted hat (List.getElem?_eq_getElem hj) (hino.trans hino'.symm), htype]

/-- Sorting a table without repeated numbers gives a sorted table with the same entries. -/
theorem inodeSorttable_sorts (q : Qsort) (hnodup : (known w).Nodup) : Ends r (inodeSorttable q) w (fun _ w' =>
    Sorted w' ∧ w'.inodes.Perm w.inodes ∧
      w' = { w with inodes := w'.inodes, inodesSorted := true }) := by
  rw [inodeSorttable, ends_modify]
  have hperm : (q.sort (fun a b => decide (a.ino ≤ b.ino)) w.inodes).Perm w.inodes := q.perm _ _
  refine ⟨⟨rfl, ?_⟩, hperm, rfl⟩
  have hle := q.sorted (fun a b : Inodeinfo => decide (a.ino ≤ b.ino))
    (fun a b c hab hbc => decide_eq_true (Nat.le_trans (of_decide_eq_true hab) (of_decide_eq_true hbc)))
    (fun a b => (Nat.le_total a.ino b.ino).imp decide_eq_true decide_eq_true) w.inodes
  have hne : (q.sort (fun a b => decide (a.ino ≤ b.ino)) w.inodes).Pairwise (fun a b => a.ino ≠ b.ino) :=
    List.pairwise_map.mp ((hperm.map _).nodup_iff.mpr hnodup)
  exact (hle.and hne).imp fun h => Nat.lt_of_le_of_ne (of_decide_eq_true h.1) h.2

/-- The numbers in the table with the types. -/
def typed (w : World) : List (ℕ × ℕ) := w.inodes.map (fun inf => (inf.ino, inf.type))

theorem known_typed (w : World) : known w = (typed w).map Prod.fst := by simp [known, typed, Function.comp_def]

theorem has_typed : Has w ino type ↔ (ino, type) ∈ typed w := by simp [Has, typed]

theorem sorted_typed : Sorted w ↔ w.inodesSorted = true ∧ (typed w).Pairwise (fun a b => a.1 < b.1) := by
  rw [Sorted, typed, List.pairwise_map]

/-- Inodes are added one after the other. -/
def inodeAdds (calls : List (ℕ × ℕ)) : Check Unit :=
  calls.foldlM (fun _ p => do
    let _ ← inodeAdd p.1 p.2
    pure ()) ()

/-- The world with no table. -/
def untabled (w : World) : World := { w with inodes := [], maxinodes := 0, inodesSorted := false }

/-- The table has each inode that has been added once, and nothing has been counted yet. -/
structure Tabled (calls : List (ℕ × ℕ)) (w : World) : Prop where
  distinct : (known w).Nodup
  entries : ∀ p, p ∈ typed w ↔ p ∈ calls
  unlinked : ∀ inf ∈ w.inodes, inf.linkcount = 0
  room : w.inodes.length ≤ w.maxinodes

theorem untabled_tabled (w : World) : Tabled [] (untabled w) where
  distinct := List.nodup_nil
  entries _ := Iff.rfl
  unlinked _ h := absurd h List.not_mem_nil
  room := Nat.le_refl 0

theorem newmax_gt {maxinodes : ℕ} : maxinodes < newmax maxinodes := by
  unfold newmax
  split <;> omega

theorem Tabled.enter {calls : List (ℕ × ℕ)} (h : Tabled calls w) (hnew : ino ∉ known w) {maxinodes : ℕ}
    (hroom : w.inodes.length < maxinodes) (memory : ℕ → Bool) : Tabled (calls ++ [(ino, type)]) { w with
      inodes := w.inodes ++ [⟨ino, 0, false, type⟩]
      maxinodes := maxinodes
      inodesSorted := false
      memory := memory } where
  distinct := by
    simp only [known, List.map_append, List.map_cons, List.map_nil]
    exact List.nodup_append.mpr ⟨h.distinct, List.nodup_singleton ino, by
      intro a ha b hb hab
      rw [List.mem_singleton] at hb
      exact hnew (hb ▸ hab ▸ ha)⟩
  entries p := by
    have hold := h.entries p
    simp only [typed, List.map_append, List.mem_append] at hold ⊢
    rw [hold]
    simp
  unlinked inf hinf := by
    obtain hinf | hinf := List.mem_append.mp hinf
    · exact h.unlinked inf hinf
    · rw [List.mem_singleton.mp hinf]
  room := by
    simp only [List.length_append, List.length_singleton]
    omega

/-- Two calls are for the same inode with different types. -/
def Conflicting (calls : List (ℕ × ℕ)) : Prop := ∃ p ∈ calls, ∃ p' ∈ calls, p.1 = p'.1 ∧ p.2 ≠ p'.2

/-- Why adding inodes ends early. -/
def AddFails (calls : List (ℕ × ℕ)) (e : Fatal) : Prop := e = .memory ∨ e = .assertion ∧ Conflicting calls

/-- Adding an inode enters it, if it is not there. -/
theorem inodeAdd_tabled {calls : List (ℕ × ℕ)} (h : Tabled calls w) :
    Ends (AddFails (calls ++ [(ino, type)])) (inodeAdd ino type) w (fun _ => Tabled (calls ++ [(ino, type)])) := by
  rw [inodeAdd, ends_bind, ends_get]
  cases hfind : w.inodes.find? (fun inf => inf.ino == ino) with
  | some inf =>
    have hino : inf.ino = ino := by simpa using List.find?_some hfind
    have hmem : inf ∈ w.inodes := List.mem_of_find?_eq_some hfind
    have hcall : (ino, inf.type) ∈ calls := (h.entries _).mp (has_typed.mp ⟨inf, hmem, hino, rfl⟩)
    simp only [ends_bind, ends_require, ends_pure]
    refine ⟨fun _ => ⟨fun htype => ?_, fun htype => ?_⟩, fun hno => absurd (h.unlinked inf hmem) hno⟩
    · refine ⟨h.distinct, fun p => ?_, h.unlinked, h.room⟩
      rw [h.entries, List.mem_append, List.mem_singleton]
      refine ⟨.inl, fun hp => ?_⟩
      obtain hp | rfl := hp
      · exact hp
      · exact htype ▸ hcall
    · exact .inr ⟨rfl, _, List.mem_append_left _ hcall, _, List.mem_append_right _ List.mem_cons_self, rfl, htype⟩
  | none =>
    have hnew : ino ∉ known w := by
      intro hmem
      obtain ⟨inf, hinf, hino⟩ := List.mem_map.mp hmem
      exact List.find?_eq_none.mp hfind inf hinf (by simpa using hino)
    simp only [inodeAddtable, domalloc, ends_bind, ends_get, ends_require, ends_onlyIf, ends_modify, ends_pure]
    refine ⟨fun _ => ⟨fun hfull => ⟨fun _ => ⟨fun _ => ?_, fun _ => .inl rfl⟩, fun _ => .inl rfl⟩, fun hroom => ?_⟩,
      fun hno => absurd h.room hno⟩
    · exact h.enter hnew (hfull ▸ newmax_gt) _
    · exact h.enter hnew (Nat.lt_of_le_of_ne h.room hroom) _

theorem inodeAdds_tabled (calls : List (ℕ × ℕ)) :
    Ends (AddFails calls) (inodeAdds calls) (untabled w) (fun _ => Tabled calls) := by
  apply ends_foldlM (I := fun done _ w' => Tabled done w')
  · intro done p rest hcalls _ w₁ hdone
    rw [ends_bind]
    apply (@inodeAdd_tabled _ p.1 p.2 _ hdone).mono
    · rintro e (he | ⟨he, a, ha, b, hb, hab⟩)
      · exact .inl he
      · have hsub : ∀ x ∈ done ++ [(p.1, p.2)], x ∈ calls := by
          intro x hx
          rw [hcalls]
          simp only [List.mem_append, List.mem_singleton] at hx
          obtain hx | rfl := hx
          · exact List.mem_append_left _ hx
          · exact List.mem_append_right _ List.mem_cons_self
        exact .inr ⟨he, a, hsub a ha, b, hsub b hb, hab⟩
    · intro _ _ h
      exact ends_pure.mpr h
  · exact untabled_tabled w

/-- Looking up an inode in a sorted table that has it. -/
theorem inodeFind_found (hsorted : Sorted w) (hino : ino ∈ known w) :
    ∃ i inf, inodeFind ino w = .ok (i, w) ∧ w.inodes[i]? = some inf ∧ inf.ino = ino := by
  have hne : w.inodes ≠ [] := by
    rintro hnil
    simp [known, hnil] at hino
  have hends : Ends (fun _ => False) (inodeFind ino) w
      (fun i w' => w' = w ∧ ∃ inf, w.inodes[i]? = some inf ∧ inf.ino = ino) := by
    apply inodeFind_ends.mono _ fun _ _ => id
    rintro e (⟨-, h | h⟩ | ⟨-, h⟩)
    · exact h hsorted.1
    · exact hne h
    · exact h hsorted hino
  obtain ⟨i, w', hrun, rfl, inf, hat, hinf⟩ := hends.returns
  exact ⟨i, inf, hrun, hat, hinf⟩

/-- Looking up an inode in a sorted table that does not have it. -/
theorem inodeFind_fails (hsorted : Sorted w) (hino : ino ∉ known w) :
    inodeFind ino w = .error (if w.inodes = [] then .assertion else .notFound) := by
  cases hrun : inodeFind ino w with
  | ok p =>
    obtain ⟨-, inf, hat, hinf⟩ := inodeFind_ends.ok hrun
    exact absurd (List.mem_map.mpr ⟨inf, List.mem_of_getElem? hat, hinf⟩) hino
  | error e =>
    by_cases hnil : w.inodes = []
    · have hends : Ends (· = .assertion) (inodeFind ino) w (fun _ _ => False) := by
        rw [inodeFind, ends_bind, ends_get, ends_bind, ends_require]
        refine ⟨fun _ => ?_, fun h => absurd hsorted.1 h⟩
        rw [ends_bind, ends_require]
        exact ⟨fun h => absurd h (by simp [hnil]), fun _ => rfl⟩
      rw [if_pos hnil, hends.error hrun]
    · rw [if_neg hnil]
      obtain ⟨-, h | h⟩ | ⟨rfl, -⟩ := inodeFind_ends.error hrun
      · exact absurd hsorted.1 h
      · exact absurd h hnil
      · rfl

/-- After inodes have been added and the table has been sorted, it is strictly increasing, and it finds the entry of an
inode that was added, and no other: the search ends with the fatal error, or with the assertion where the table is
empty. -/
theorem inodeTable_finds (q : Qsort) (calls : List (ℕ × ℕ)) (w : World) :
    Ends (AddFails calls) (do inodeAdds calls; inodeSorttable q) (untabled w) (fun _ w' =>
      w'.inodes.Pairwise (fun a b => a.ino < b.ino) ∧
      (∀ ino type, (ino, type) ∈ calls → ∃ i inf, inodeFind ino w' = .ok (i, w') ∧ w'.inodes[i]? = some inf ∧
        inf.ino = ino ∧ inf.type = type) ∧
      ∀ ino, ino ∉ calls.map Prod.fst →
        inodeFind ino w' = .error (if calls = [] then .assertion else .notFound)) := by
  rw [ends_bind]
  apply (inodeAdds_tabled calls).imp
  intro _ w₁ h
  apply (inodeSorttable_sorts q h.distinct).imp
  rintro _ w' ⟨hsorted, hperm, -⟩
  have htyped : ∀ p, p ∈ typed w' ↔ p ∈ calls := by
    intro p
    rw [← h.entries p]
    exact (hperm.map _).mem_iff
  have hknown : ∀ ino, ino ∈ known w' ↔ ino ∈ calls.map Prod.fst := by
    intro ino
    rw [known_typed, List.mem_map, List.mem_map]
    simp only [htyped]
  have hempty : w'.inodes = [] ↔ calls = [] := by
    have hnone : typed w' = [] ↔ calls = [] := by simp only [List.eq_nil_iff_forall_not_mem, htyped]
    exact List.map_eq_nil_iff.symm.trans hnone
  refine ⟨hsorted.2, ?_, ?_⟩
  · intro ino type hcall
    have hhas : Has w' ino type := has_typed.mpr ((htyped _).mpr hcall)
    obtain ⟨i, inf, hrun, hat, hino⟩ := inodeFind_found hsorted hhas.known
    exact ⟨i, inf, hrun, hat, hino, hhas.type_eq hsorted hat hino⟩
  · intro ino hno
    rw [inodeFind_fails hsorted (fun hmem => hno ((hknown ino).mp hmem))]
    simp only [hempty]

/-- Sorting by insertion does what `qsort` is relied on for. -/
def insertionQsort : Qsort where
  sort le l := l.insertionSort (fun a b => le a b = true)
  perm le l := List.perm_insertionSort _ l
  sorted le htrans htotal l := by
    have htotal' : Std.Total (fun a b => le a b = true) := ⟨htotal⟩
    have htrans' : IsTrans _ (fun a b => le a b = true) := ⟨htrans⟩
    exact List.pairwise_insertionSort _ l

/-- An empty table that is sorted. -/
def emptyTable : World := { untabled (blank 4096) with inodesSorted := true }

/-- Where no inode has been added, it is the assertion that ends the search, and not the fatal error. -/
theorem emptyTable_asserts :
    (do inodeAdds []; inodeSorttable insertionQsort) (untabled (blank 4096)) = .ok ((), emptyTable) ∧
      1 ∉ ([] : List (ℕ × ℕ)).map Prod.fst ∧ inodeFind 1 emptyTable = .error .assertion := by
  have hsorted : Sorted emptyTable := ⟨rfl, List.Pairwise.nil⟩
  exact ⟨rfl, List.not_mem_nil, inodeFind_fails hsorted List.not_mem_nil⟩

end OS161.SfsckInodes
