import OS161.FileOpening

/-!
# Clearing one slot

What clearing a slot does beyond the accounting: which vnodes lose their
`File` in the global table and which descriptor is freed. Both happen exactly
when the vnode's count was one. `closeSlots_rule` is the rule for the loop of
`local_table_close_all` over these facts.
-/

set_option autoImplicit false

namespace OS161.FileClearing

open Function OS161.Slots OS161.Vfs OS161.FileTable OS161.FileOwnership OS161.FileClosing
open OS161.FileOpening

/-- The global table holds a `File` of the vnode. -/
def listed (s : State) (vn : ℕ) : Prop := ∃ j file, s.table.files j = some file ∧ fileNode s file = some vn

/-- A reference to `x` is given back, and with the last one the `File` goes. -/
structure Given (x : Option ℕ) (s s' : State) : Prop where
  counts : ∀ w, s'.refcount w + pointsTo x w = s.refcount w
  listed : ∀ w, listed s' w ↔ listed s w ∧ ¬ (x = some w ∧ s.refcount w = 1)

variable {n : ℕ} {hand : ℕ → ℕ} {held : ℕ → Prop} {s : State}

theorem given_none (s : State) : Given none s s := by
  constructor
  · intro w
    simp [pointsTo]
  · intro w
    simp

theorem decremented_counts {vn : ℕ} (hpos : s.refcount vn ≠ 0) (w : ℕ) :
    update s.refcount vn (s.refcount vn-1) w + pointsTo (some vn) w = s.refcount w := by
  have hdec : vnodeDecref vn s.refcount = .ok (update s.refcount vn (s.refcount vn-1)) := by
    simp [vnodeDecref, hpos]
  exact decref_counts hdec w

theorem reclaimed_listed (h : Heaps s) {file vn : ℕ} (hf : Held s file)
    (hv : fileNode s file = some vn) (w : ℕ) :
    listed (reclaimed file vn s) w ↔ listed s w ∧ w ≠ vn := by
  have hentry := removeFile_entry h hf hv
  constructor
  · rintro ⟨j, g, hj, hg⟩
    obtain ⟨hold, hne⟩ := (hentry j g).mp hj
    refine ⟨⟨j, g, hold, hg⟩, ?_⟩
    intro hw
    obtain ⟨-, -, k, hk⟩ := hf
    have hjk : j = k := h.table_node j k g file w hold hk hg (hw ▸ hv)
    rw [hjk, hk] at hold
    exact hne (Option.some.inj hold).symm
  · rintro ⟨⟨j, g, hj, hg⟩, hw⟩
    have hne : g ≠ file := by
      intro he
      rw [he, hv] at hg
      exact hw (Option.some.inj hg).symm
    exact ⟨j, g, (hentry j g).mpr ⟨hj, hne⟩, hg⟩

theorem reclaimed_given (h : Heaps s) {file vn : ℕ} (hf : Held s file)
    (hv : fileNode s file = some vn) (hone : s.refcount vn = 1) :
    Given (some vn) s (reclaimed file vn s) := by
  constructor
  · intro w
    have hpos : s.refcount vn ≠ 0 := by omega
    have hc := decremented_counts hpos w
    rwa [hone] at hc
  · intro w
    rw [reclaimed_listed h hf hv]
    constructor
    · rintro ⟨hw, hne⟩
      exact ⟨hw, fun hx => hne (Option.some.inj hx.1).symm⟩
    · rintro ⟨hw, hn⟩
      refine ⟨hw, ?_⟩
      intro he
      exact hn ⟨by rw [he], by rw [he, hone]⟩

theorem decremented_given {vn : ℕ} (hpos : s.refcount vn ≠ 0) (hone : s.refcount vn ≠ 1) :
    Given (some vn) s { s with refcount := update s.refcount vn (s.refcount vn-1) } := by
  constructor
  · exact decremented_counts hpos
  · intro w
    constructor
    · intro hw
      refine ⟨hw, ?_⟩
      rintro ⟨hx, h1⟩
      rw [← Option.some.inj hx] at h1
      exact hone h1
    · exact fun hw => hw.1

theorem fileDestroy_given (h : Heaps s) {file vn : ℕ} {b : Bool} {s' : State} (hf : Held s file)
    (hv : fileNode s file = some vn) (hpos : s.refcount vn ≠ 0)
    (hs : fileDestroy file s = .ok (b, s')) : Given (some vn) s s' := by
  rw [fileDestroy_held h hf hv hpos] at hs
  by_cases hone : s.refcount vn = 1
  · rw [if_pos hone] at hs
    cases hs
    exact reclaimed_given h hf hv hone
  · rw [if_neg hone] at hs
    cases hs
    exact decremented_given hpos hone

/-- The descriptor is freed with the last reference to its vnode. -/
def freed (s : State) (d : ℕ) : Prop := ∃ vn, descNode s d = some vn ∧ s.refcount vn = 1

theorem dropped_given (h : Heaps s) {d file vn : ℕ} (hf : Held s file)
    (hv : fileNode s file = some vn) (hpos : s.refcount vn ≠ 0) :
    Given (some vn) s (dropped d file vn s) := by
  unfold dropped
  split
  · next hone =>
    obtain ⟨hc, hl⟩ := reclaimed_given h hf hv hone
    exact ⟨hc, hl⟩
  · next hone => exact decremented_given hpos hone

theorem dropped_live {d file vn : ℕ} (hd : descNode s d = some vn) (e : ℕ) :
    (dropped d file vn s).descs.live e = true ↔ s.descs.live e = true ∧ ¬ (e = d ∧ freed s d) := by
  have hfreed : freed s d ↔ s.refcount vn = 1 := by
    simp [freed, hd]
  rw [hfreed]
  unfold dropped
  split
  · next hone =>
    by_cases he : e = d
    · simp [Store.free, he, hone]
    · simp [Store.free, he]
  · next hone => simp [hone]

theorem fileDescDestroy_given (h : Heaps s) {d : ℕ} {s' : State} (hd : ValidDesc s d)
    (hpos : ∀ vn, descNode s d = some vn → s.refcount vn ≠ 0) (hs : fileDescDestroy d s = .ok s') :
    Given (descNode s d) s s' ∧
      ∀ e, s'.descs.live e = true ↔ s.descs.live e = true ∧ ¬ (e = d ∧ freed s d) := by
  by_cases hlt : d < 3
  · rw [fileDescDestroy_std hlt] at hs
    cases hs
    have hnone := std_node h hlt
    rw [hnone]
    refine ⟨given_none s, ?_⟩
    intro e
    simp [freed, hnone]
  · obtain ⟨fd, vn, hget, hheld, hv, hnode⟩ := validDesc_user hd (by omega) h
    rw [fileDescDestroy_user h (by omega) hget hheld hv (hpos vn hnode)] at hs
    cases hs
    rw [hnode]
    exact ⟨dropped_given h hheld hv (hpos vn hnode), dropped_live hnode⟩

/-- All that clearing slot `i` of process `p` does to what the model's
invariants speak of. -/
structure Cleared (p : ℕ) (i : Handle) (d : ℕ) (s s' : State) : Prop where
  slot : ∀ q j, s'.slot q j = if q = p ∧ j = i then none else s.slot q j
  fileNode : ∀ f, fileNode s' f = fileNode s f
  descNode : ∀ e, descNode s' e = descNode s e
  given : Given (FileOwnership.descNode s d) s s'
  live : ∀ e, s'.descs.live e = true ↔ s.descs.live e = true ∧ ¬ (e = d ∧ freed s d)

theorem clear_cleared {p d : ℕ} {i : Handle} {u s' : State} (h : Owned n hand held s) (hp : p < n)
    (hd : s.slot p i = some d) (hu : SameHeap s u) (hc : u.refcount = s.refcount)
    (hslot : ∀ q j, u.slot q j = if q = p ∧ j = i then none else s.slot q j)
    (hs : fileDescDestroy d u = .ok s') : Cleared p i d s s' := by
  have hpos : ∀ vn, descNode u d = some vn → u.refcount vn ≠ 0 := by
    intro vn hv
    rw [hu.descNode] at hv
    have hcount := h.counts vn
    have htable := tableRefs_pos hp hd hv
    rw [hc]
    omega
  have hlisted : ∀ w, listed u w ↔ listed s w := by
    intro w
    simp only [listed, hu.table, hu.fileNode]
  have hfreed : freed u d ↔ freed s d := by
    simp only [freed, hu.descNode, hc]
  obtain ⟨hgiven, hlive⟩ :=
    fileDescDestroy_given (hu.heaps h.heap) (hu.valid (h.slots p hp i d hd)) hpos hs
  have hframe := fileDescDestroy_frame hs
  constructor
  · intro q j
    rw [hframe.slot, hslot]
  · intro f
    rw [hframe.fileNode, hu.fileNode]
  · intro e
    rw [hframe.descNode, hu.descNode]
  · constructor
    · intro w
      rw [← hu.descNode, ← hc]
      exact hgiven.counts w
    · intro w
      rw [hgiven.listed, hlisted, hu.descNode, hc]
  · intro e
    rw [hlive, hu.descs, hfreed]

theorem closeSlot_cleared {p d : ℕ} {i : Handle} {s' : State} (h : Owned n hand held s) (hp : p < n)
    (hd : s.slot p i = some d) (hs : closeSlot p i s = .ok (none, s')) : Cleared p i d s s' := by
  simp only [closeSlot, hd] at hs
  cases hf : fileDescDestroy d ((s.setSlot p i none).setNum p ((s.locals p).numOpenFiles-1)) with
  | error e => simp [hf] at hs
  | ok u =>
    simp only [hf, Except.ok.injEq, Prod.mk.injEq, true_and] at hs
    subst hs
    have hslot : ∀ q j, ((s.setSlot p i none).setNum p ((s.locals p).numOpenFiles-1)).slot q j =
        if q = p ∧ j = i then none else s.slot q j := by
      intro q j
      rw [setNum_slot, setSlot_slot]
    have hsame : SameHeap s ((s.setSlot p i none).setNum p ((s.locals p).numOpenFiles-1)) :=
      ⟨rfl, rfl, rfl⟩
    exact clear_cleared h hp hd hsame rfl hslot hf

/-- The rule for the loop that closes the listed slots: what every single
clearing preserves holds at the end. -/
theorem closeSlots_rule {p : ℕ} {P : List Handle → State → Prop} (hp : p < n)
    (hnone : ∀ i is u, Owned n hand held u → u.slot p i = none → P (i::is) u → P is u)
    (hsome : ∀ i is d u v, Owned n hand held u → u.slot p i = some d → Cleared p i d u v →
      P (i::is) u → P is v)
    {is : List Handle} {s' : State} (h : Owned n hand held s)
    (hpin : ∀ g vn, held g → fileNode s g = some vn → 0 < hand vn) (hP : P is s)
    (hs : closeSlots p is s = .ok s') : P [] s' := by
  induction is generalizing s with
  | nil =>
    cases hs
    exact hP
  | cons i is ih =>
    cases hd : s.slot p i with
    | none =>
      simp only [closeSlots, hd, setSlot_none_self hd] at hs
      exact ih h hpin (hnone i is s h hd hP) hs
    | some d =>
      have hvalid : ValidDesc (s.setSlot p i none) d := h.slots p hp i d hd
      obtain ⟨t, ht, ho⟩ := fileDescDestroy_owned (h.clear hp hd) hvalid hpin
      have hcl : Cleared p i d s t :=
        clear_cleared h hp hd (sameHeap_setSlot s p i none) rfl (fun q j => setSlot_slot s p q i j none) ht
      simp only [closeSlots, hd, ht] at hs
      exact ih ho (fun g vn hg hv => hpin g vn hg (by rwa [hcl.fileNode] at hv))
        (hsome i is d s t h hd hcl hP) hs

theorem insertFile_old {t : GlobalFileTable} {file g : ℕ} {j : Fin MAX_GLOBAL_TABLE_SIZE}
    (hj : (insertFile file t).files j = some g) (hne : g ≠ file) : t.files j = some g := by
  cases hi : firstFree t.files with
  | none => simpa [insertFile, hi] using hj
  | some i =>
    simp only [insertFile_entry file hi] at hj
    by_cases hji : j = i
    · rw [hji, update_self] at hj
      exact absurd (Option.some.inj hj).symm hne
    · rwa [update_of_ne hji] at hj

/-- The critical section of `global_table_open_file` lists at most the vnode
it was called for, and changes no count. -/
theorem globalTableOpenFile_listed {vn : ℕ} {mem : Bool} {r : Except Errno ℕ} {s' : State}
    (h : globalTableOpenFile vn mem s = .ok (r, s')) :
    s'.refcount = s.refcount ∧ ∀ w, listed s' w → listed s w ∨ w = vn := by
  unfold globalTableOpenFile at h
  split at h
  · cases h
    exact ⟨rfl, fun w hw => .inl hw⟩
  · split at h
    · cases h
    · cases h
      exact ⟨rfl, fun w hw => .inl hw⟩
    · split at h
      · cases h
        exact ⟨rfl, fun w hw => .inl hw⟩
      · cases h
        refine ⟨rfl, ?_⟩
        rintro w ⟨j, file, hj, hv⟩
        by_cases hf : file = s.files.next
        · rw [hf] at hv
          exact .inr (Option.some.inj (hv.symm.trans (opened_fileNode_self vn)))
        · exact .inl ⟨j, file, insertFile_old hj hf, (opened_fileNode vn hf).symm.trans hv⟩

end OS161.FileClearing
