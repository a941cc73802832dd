import OS161.FileTable

/-!
# Ownership of vnode references

Every reference to a vnode is held either in a slot of some local table or
outside the tables: by a device, a current directory, an open in progress, or
in the hand of the function that is running. `Owned` states that the count of
each vnode is the sum of the two, and that whatever a slot or an open in
progress points to is still allocated. The rules below move one reference
between a slot and the hand, and show what the table functions do with it.
-/

set_option autoImplicit false

namespace OS161.FileOwnership

open Function OS161.Slots OS161.Vfs OS161.FileTable

abbrev Handle := Fin MAX_LOCAL_TABLE_SIZE

def fileNode (s : State) (file : ℕ) : Option ℕ := (s.files.cell file).bind File.node

def descNode (s : State) (desc : ℕ) : Option ℕ :=
  (s.descs.cell desc).bind (fun fd => fileNode s fd.file)

def pointsTo (x : Option ℕ) (vn : ℕ) : ℕ := if x = some vn then 1 else 0

theorem acquired_counts (vn : ℕ) (c : Refcounts) (w : ℕ) :
    acquired vn c w = c w + pointsTo (some vn) w := by
  by_cases hw : w = vn
  · subst hw
    simp [acquired, pointsTo]
  · simp [acquired, pointsTo, update_of_ne hw, Ne.symm hw]

theorem incref_counts {vn : ℕ} {c c' : Refcounts} (h : vnodeIncref vn c = .ok c') (w : ℕ) :
    c' w = c w + pointsTo (some vn) w := by
  unfold vnodeIncref at h
  split at h
  · cases h
  · cases h
    exact acquired_counts vn c w

theorem decref_counts {vn : ℕ} {c c' : Refcounts} (h : vnodeDecref vn c = .ok c') (w : ℕ) :
    c' w + pointsTo (some vn) w = c w := by
  unfold vnodeDecref at h
  split at h
  · cases h
  · next hpos =>
    cases h
    by_cases hw : w = vn
    · subst hw
      simp [pointsTo]
      omega
    · simp [pointsTo, update_of_ne hw, Ne.symm hw]

def slotRefs (s : State) (vn p : ℕ) : ℕ :=
  weight (fun d => pointsTo (descNode s d) vn) (s.locals p).files

/-- The number of local-table slots, over the first `n` processes, whose
descriptor leads to the vnode. -/
def tableRefs (s : State) (n vn : ℕ) : ℕ := total (slotRefs s vn) n

/-- The allocated objects and the global table agree with each other. -/
structure Heaps (s : State) : Prop where
  std_file : ∀ i < 3, s.files.get i = some ⟨none, true⟩
  std_desc : ∀ i < 3, ∃ flags, s.descs.get i = some ⟨i, flags, 0, i⟩
  user_file : ∀ i f, 3 ≤ i → s.files.cell i = some f → f.isStandard = false ∧ ∃ vn, f.node = some vn
  user_desc : ∀ d fd, 3 ≤ d → s.descs.cell d = some fd →
    fd.standard = -1 ∧ 3 ≤ fd.file ∧ ∃ f, s.files.cell fd.file = some f
  table_live : ∀ j file, s.table.files j = some file → s.files.live file = true
  table_std : ∀ j file, file < 3 → (s.table.files j = some file ↔ j.val = file)
  table_node : ∀ i j f g vn, s.table.files i = some f → s.table.files j = some g →
    fileNode s f = some vn → fileNode s g = some vn → i = j
  live_table : ∀ file, 3 ≤ file → s.files.live file = true → ∃ j, s.table.files j = some file
  table_count : s.table.numOpenFiles = occupied s.table.files

def Held (s : State) (file : ℕ) : Prop :=
  3 ≤ file ∧ s.files.live file = true ∧ ∃ j, s.table.files j = some file

def ValidDesc (s : State) (d : ℕ) : Prop :=
  d < 3 ∨ (3 ≤ d ∧ s.descs.live d = true ∧ ∃ fd, s.descs.cell d = some fd ∧ Held s fd.file)

structure Owned (n : ℕ) (hand : ℕ → ℕ) (held : ℕ → Prop) (s : State) : Prop where
  heap : Heaps s
  slots : ∀ p < n, ∀ i d, s.slot p i = some d → ValidDesc s d
  pinned : ∀ file, held file → Held s file
  counts : ∀ vn, s.refcount vn = hand vn + tableRefs s n vn

@[simp] theorem setSlot_refcount (s : State) (p : ℕ) (i : Handle) (x : Option ℕ) :
    (s.setSlot p i x).refcount = s.refcount := rfl

@[simp] theorem setSlot_files (s : State) (p : ℕ) (i : Handle) (x : Option ℕ) :
    (s.setSlot p i x).files = s.files := rfl

@[simp] theorem setSlot_descs (s : State) (p : ℕ) (i : Handle) (x : Option ℕ) :
    (s.setSlot p i x).descs = s.descs := rfl

@[simp] theorem setSlot_table (s : State) (p : ℕ) (i : Handle) (x : Option ℕ) :
    (s.setSlot p i x).table = s.table := rfl

@[simp] theorem setNum_refcount (s : State) (p : ℕ) (k : ℤ) : (s.setNum p k).refcount = s.refcount := rfl

@[simp] theorem setNum_files (s : State) (p : ℕ) (k : ℤ) : (s.setNum p k).files = s.files := rfl

@[simp] theorem setNum_descs (s : State) (p : ℕ) (k : ℤ) : (s.setNum p k).descs = s.descs := rfl

@[simp] theorem setNum_table (s : State) (p : ℕ) (k : ℤ) : (s.setNum p k).table = s.table := rfl

@[simp] theorem setNum_local_files (s : State) (p q : ℕ) (k : ℤ) :
    ((s.setNum p k).locals q).files = (s.locals q).files := by
  by_cases h : q = p
  · subst h
    simp [State.setNum]
  · simp [State.setNum, update_of_ne h]

@[simp] theorem setNum_slot (s : State) (p q : ℕ) (k : ℤ) (i : Handle) :
    (s.setNum p k).slot q i = s.slot q i := by
  simp [State.slot]

theorem setSlot_local_self (s : State) (p : ℕ) (i : Handle) (x : Option ℕ) :
    ((s.setSlot p i x).locals p).files = update (s.locals p).files i x := by
  simp [State.setSlot]

theorem setSlot_local_ne (s : State) {p q : ℕ} (h : q ≠ p) (i : Handle) (x : Option ℕ) :
    (s.setSlot p i x).locals q = s.locals q := by
  simp [State.setSlot, update_of_ne h]

@[simp] theorem setSlot_num (s : State) (p q : ℕ) (i : Handle) (x : Option ℕ) :
    ((s.setSlot p i x).locals q).numOpenFiles = (s.locals q).numOpenFiles := by
  by_cases h : q = p
  · subst h
    simp [State.setSlot]
  · rw [setSlot_local_ne s h]

theorem setSlot_slot (s : State) (p q : ℕ) (i j : Handle) (x : Option ℕ) :
    (s.setSlot p i x).slot q j = if q = p ∧ j = i then x else s.slot q j := by
  by_cases hq : q = p
  · subst hq
    by_cases hj : j = i
    · subst hj
      simp [State.slot, setSlot_local_self]
    · simp [State.slot, setSlot_local_self, hj]
  · simp [State.slot, setSlot_local_ne s hq, hq]

/-- States whose heaps and global table are the same lead descriptors to the
same places. -/
structure SameHeap (s s' : State) : Prop where
  files : s'.files = s.files
  descs : s'.descs = s.descs
  table : s'.table = s.table

theorem SameHeap.fileNode {s s' : State} (h : SameHeap s s') : fileNode s' = fileNode s := by
  funext f
  simp [FileOwnership.fileNode, h.files]

theorem SameHeap.descNode {s s' : State} (h : SameHeap s s') : descNode s' = descNode s := by
  funext d
  simp [FileOwnership.descNode, h.descs, h.fileNode]

theorem SameHeap.held {s s' : State} (h : SameHeap s s') {f : ℕ} (hf : Held s f) : Held s' f := by
  simpa only [Held, h.files, h.table] using hf

theorem SameHeap.valid {s s' : State} (h : SameHeap s s') {d : ℕ} (hd : ValidDesc s d) :
    ValidDesc s' d := by
  simpa only [ValidDesc, Held, h.files, h.descs, h.table] using hd

theorem SameHeap.heaps {s s' : State} (h : SameHeap s s') (hs : Heaps s) : Heaps s' := by
  obtain ⟨h3, h4, h5, h6, h7, h8, h9, h10, h11⟩ := hs
  constructor <;> simpa only [h.files, h.descs, h.table, h.fileNode]

theorem SameHeap.slotRefs {s s' : State} (h : SameHeap s s') {p : ℕ}
    (hl : (s'.locals p).files = (s.locals p).files) (vn : ℕ) : slotRefs s' vn p = slotRefs s vn p := by
  simp only [FileOwnership.slotRefs, h.descNode, hl]

theorem sameHeap_setSlot (s : State) (p : ℕ) (i : Handle) (x : Option ℕ) :
    SameHeap s (s.setSlot p i x) := ⟨rfl, rfl, rfl⟩

theorem sameHeap_refcount (s : State) (c : Refcounts) : SameHeap s { s with refcount := c } :=
  ⟨rfl, rfl, rfl⟩

theorem tableRefs_setSlot (s : State) {n p : ℕ} (hp : p < n) (i : Handle) (x : Option ℕ) (vn : ℕ) :
    tableRefs (s.setSlot p i x) n vn + (s.slot p i).elim 0 (fun d => pointsTo (descNode s d) vn) =
      tableRefs s n vn + x.elim 0 (fun d => pointsTo (descNode s d) vn) := by
  have hsame := sameHeap_setSlot s p i x
  have hself := weight_update (fun d => pointsTo (descNode s d) vn) (s.locals p).files i x
  have hp' : slotRefs (s.setSlot p i x) vn p =
      weight (fun d => pointsTo (descNode s d) vn) (update (s.locals p).files i x) := by
    simp only [slotRefs, hsame.descNode, setSlot_local_self]
  have hother : ∀ q, q ≠ p → slotRefs (s.setSlot p i x) vn q = slotRefs s vn q := by
    intro q hq
    exact hsame.slotRefs (by rw [setSlot_local_ne s hq]) vn
  have hsum := total_change hp hother
  rw [hp'] at hsum
  simp only [tableRefs, State.slot, slotRefs] at *
  omega

theorem tableRefs_pos {s : State} {n p vn d : ℕ} {i : Handle} (hp : p < n)
    (hd : s.slot p i = some d) (hv : descNode s d = some vn) : 0 < tableRefs s n vn := by
  apply total_pos.mpr
  refine ⟨p, hp, weight_pos.mpr ⟨i, d, hd, ?_⟩⟩
  simp [pointsTo, hv]

theorem tableRefs_exists {s : State} {n vn : ℕ} (h : 0 < tableRefs s n vn) :
    ∃ p < n, ∃ i d, s.slot p i = some d ∧ descNode s d = some vn := by
  obtain ⟨p, hp, hw⟩ := total_pos.mp h
  obtain ⟨i, d, hd, hpt⟩ := weight_pos.mp hw
  refine ⟨p, hp, i, d, hd, ?_⟩
  by_contra hne
  simp [pointsTo, hne] at hpt

/-- One more reference to `x` in the hand. -/
def plus (hand : ℕ → ℕ) (x : Option ℕ) : ℕ → ℕ := fun vn => hand vn + pointsTo x vn

variable {n : ℕ} {hand : ℕ → ℕ} {held : ℕ → Prop} {s : State}

theorem Owned.setNum (h : Owned n hand held s) (p : ℕ) (k : ℤ) : Owned n hand held (s.setNum p k) := by
  have hsame : SameHeap s (s.setNum p k) := ⟨rfl, rfl, rfl⟩
  refine ⟨hsame.heaps h.heap, ?_, fun f hf => hsame.held (h.pinned f hf), ?_⟩
  · intro q hq i d hd
    exact hsame.valid (h.slots q hq i d (by simpa using hd))
  · intro vn
    have hsum : tableRefs (s.setNum p k) n vn = tableRefs s n vn := by
      apply total_congr
      intro q _
      exact hsame.slotRefs (by simp) vn
    rw [hsum]
    exact h.counts vn

/-- Emptying a slot moves the reference it held into the hand. -/
theorem Owned.clear {p d : ℕ} {i : Handle} (h : Owned n hand held s) (hp : p < n)
    (hd : s.slot p i = some d) :
    Owned n (plus hand (descNode s d)) held (s.setSlot p i none) := by
  have hsame := sameHeap_setSlot s p i none
  refine ⟨hsame.heaps h.heap, ?_, fun f hf => hsame.held (h.pinned f hf), ?_⟩
  · intro q hq j e he
    rw [setSlot_slot] at he
    split at he
    · cases he
    · exact hsame.valid (h.slots q hq j e he)
  · intro vn
    have hsum := tableRefs_setSlot s hp i none vn
    have hc := h.counts vn
    simp only [hd, Option.elim_some, Option.elim_none] at hsum
    simp only [setSlot_refcount, plus]
    omega

/-- Filling an empty slot takes the reference it holds out of the hand. -/
theorem Owned.install {p d : ℕ} {i : Handle} (h : Owned n (plus hand (descNode s d)) held s)
    (hp : p < n) (hi : s.slot p i = none) (hd : ValidDesc s d) :
    Owned n hand held (s.setSlot p i (some d)) := by
  have hsame := sameHeap_setSlot s p i (some d)
  refine ⟨hsame.heaps h.heap, ?_, fun f hf => hsame.held (h.pinned f hf), ?_⟩
  · intro q hq j e he
    rw [setSlot_slot] at he
    split at he
    · cases he
      exact hsame.valid hd
    · exact hsame.valid (h.slots q hq j e he)
  · intro vn
    have hsum := tableRefs_setSlot s hp i (some d) vn
    have hc := h.counts vn
    simp only [hi, Option.elim_some, Option.elim_none, plus] at hsum hc
    simp only [setSlot_refcount]
    omega

theorem Owned.withCounts {hand' : ℕ → ℕ} {c : Refcounts} (h : Owned n hand held s)
    (hc : ∀ vn, c vn + hand vn = s.refcount vn + hand' vn) :
    Owned n hand' held { s with refcount := c } := by
  have hsame := sameHeap_refcount s c
  refine ⟨hsame.heaps h.heap, ?_, fun f hf => hsame.held (h.pinned f hf), ?_⟩
  · intro q hq j e he
    exact hsame.valid (h.slots q hq j e he)
  · intro vn
    have hsum : tableRefs { s with refcount := c } n vn = tableRefs s n vn := by
      apply total_congr
      intro q _
      exact hsame.slotRefs rfl vn
    have h1 := h.counts vn
    have h2 := hc vn
    rw [hsum]
    change c vn = _
    omega

theorem Owned.incref {vn : ℕ} (h : Owned n hand held s) (hv : s.refcount vn ≠ 0) :
    ∃ c, vnodeIncref vn s.refcount = .ok c ∧
      Owned n (plus hand (some vn)) held { s with refcount := c } := by
  have hc : vnodeIncref vn s.refcount = .ok (update s.refcount vn (s.refcount vn+1)) := by
    simp [vnodeIncref, hv]
  refine ⟨_, hc, h.withCounts ?_⟩
  intro w
  have := incref_counts hc w
  simp only [plus]
  omega

theorem Owned.decref {vn : ℕ} (h : Owned n (plus hand (some vn)) held s) :
    ∃ c, vnodeDecref vn s.refcount = .ok c ∧ c = update s.refcount vn (s.refcount vn-1) ∧
      Owned n hand held { s with refcount := c } := by
  have hpos : s.refcount vn ≠ 0 := by
    have := h.counts vn
    simp [plus, pointsTo] at this
    omega
  have hc : vnodeDecref vn s.refcount = .ok (update s.refcount vn (s.refcount vn-1)) := by
    simp [vnodeDecref, hpos]
  refine ⟨_, hc, rfl, h.withCounts ?_⟩
  intro w
  have := decref_counts hc w
  simp only [plus]
  omega

theorem Owned.handEq {hand' : ℕ → ℕ} (h : Owned n hand held s) (he : ∀ vn, hand' vn = hand vn) :
    Owned n hand' held s := by
  have hfun : hand' = hand := funext he
  rwa [hfun]

theorem Owned.mono {held' : ℕ → Prop} (h : Owned n hand held s) (hm : ∀ f, held' f → held f) :
    Owned n hand held' s := ⟨h.heap, h.slots, fun f hf => h.pinned f (hm f hf), h.counts⟩

end OS161.FileOwnership
