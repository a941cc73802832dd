import OS161.FileOwnership

/-!
# Giving references back

`file_destroy` and `file_desc_destroy` give back the reference in the hand. A
vnode count of one is read as "nobody else has this file open"; on tables
whose references are accounted for that reading is right, so what is freed is
pointed to by nothing that remains.
-/

set_option autoImplicit false

namespace OS161.FileClosing

open Function OS161.Slots OS161.Vfs OS161.FileTable OS161.FileOwnership

variable {n : ℕ} {hand : ℕ → ℕ} {held : ℕ → Prop} {s : State}

theorem removeFile_entry (h : Heaps s) {file vn : ℕ} (hf : Held s file)
    (hv : fileNode s file = some vn) (k : Fin MAX_GLOBAL_TABLE_SIZE) (g : ℕ) :
    (removeFile file s.table).files k = some g ↔ s.table.files k = some g ∧ g ≠ file := by
  obtain ⟨-, -, j, hj⟩ := hf
  cases hi : indexOf file s.table.files with
  | none => exact absurd hj (indexOf_eq_none.mp hi j)
  | some i =>
    obtain ⟨hfile, -⟩ := indexOf_eq_some.mp hi
    simp only [removeFile, hi]
    by_cases hk : k = i
    · subst hk
      simp [hfile]
      exact fun h => h.symm
    · rw [update_of_ne hk]
      constructor
      · intro hg
        refine ⟨hg, ?_⟩
        intro he
        subst he
        exact hk (h.table_node k i _ _ vn hg hfile hv hv)
      · exact fun hg => hg.1

theorem removeFile_count (h : Heaps s) {file : ℕ} (hf : Held s file) :
    (removeFile file s.table).numOpenFiles = occupied (removeFile file s.table).files := by
  obtain ⟨-, -, j, hj⟩ := hf
  cases hi : indexOf file s.table.files with
  | none => exact absurd hj (indexOf_eq_none.mp hi j)
  | some i =>
    obtain ⟨hfile, -⟩ := indexOf_eq_some.mp hi
    have hc := weight_clear (w := fun _ => 1) hfile
    have hn := h.table_count
    simp only [removeFile, hi, occupied] at *
    omega

/-- The global table after the last reference to a vnode has been given back. -/
def reclaimed (file vn : ℕ) (s : State) : State :=
  { s with refcount := update s.refcount vn 0, table := removeFile file s.table, files := s.files.free file }

theorem reclaim_heaps (h : Heaps s) {file vn : ℕ} (hf : Held s file)
    (hv : fileNode s file = some vn) : Heaps (reclaimed file vn s) := by
  have hentry := removeFile_entry h hf hv
  have h3 := hf.1
  constructor
  · intro i hi
    have hne : i ≠ file := by omega
    simpa only [reclaimed, Store.free_get hne] using h.std_file i hi
  · exact h.std_desc
  · exact h.user_file
  · exact h.user_desc
  · intro j g hg
    obtain ⟨hold, hne⟩ := (hentry j g).mp hg
    simpa [reclaimed, Store.free, update_of_ne hne] using h.table_live j g hold
  · intro j g hg
    rw [← h.table_std j g hg]
    have hne : g ≠ file := by omega
    exact (hentry j g).trans (and_iff_left hne)
  · intro i j f g w hi hj hf' hg'
    exact h.table_node i j f g w ((hentry i f).mp hi).1 ((hentry j g).mp hj).1 hf' hg'
  · intro g hg hl
    have hne : g ≠ file := by
      intro he
      simp [reclaimed, Store.free, he] at hl
    obtain ⟨j, hj⟩ := h.live_table g hg (by simpa [reclaimed, Store.free, update_of_ne hne] using hl)
    exact ⟨j, (hentry j g).mpr ⟨hj, hne⟩⟩
  · exact removeFile_count h hf

theorem reclaimed_held {file vn g : ℕ} (h : Heaps s) (hf : Held s file)
    (hv : fileNode s file = some vn) (hg : Held s g) (hne : g ≠ file) :
    Held (reclaimed file vn s) g := by
  obtain ⟨h3, hl, j, hj⟩ := hg
  refine ⟨h3, ?_, j, (removeFile_entry h hf hv j g).mpr ⟨hj, hne⟩⟩
  simpa [reclaimed, Store.free, update_of_ne hne] using hl

/-- When the vnode's count is one, the reference in the hand is the only one,
so nothing that survives points to the freed file. -/
theorem reclaim_owned {file vn : ℕ} (h : Owned n (plus hand (some vn)) held s) (hf : Held s file)
    (hv : fileNode s file = some vn) (hone : s.refcount vn = 1)
    (hpin : ∀ g, held g → fileNode s g = some vn → 0 < hand vn) :
    Owned n hand held (reclaimed file vn s) := by
  have hz : hand vn = 0 ∧ tableRefs s n vn = 0 := by
    have hc := h.counts vn
    simp [plus, pointsTo] at hc
    omega
  refine ⟨reclaim_heaps h.heap hf hv, ?_, ?_, ?_⟩
  · intro p hp i d hd
    rcases h.slots p hp i d hd with hstd | ⟨h3, hl, fd, hfd, hheld⟩
    · exact .inl hstd
    · refine .inr ⟨h3, hl, fd, hfd, reclaimed_held h.heap hf hv hheld ?_⟩
      intro he
      have hnode : descNode s d = some vn := by
        simp [descNode, hfd, he, hv]
      have hpos : 0 < tableRefs s n vn := tableRefs_pos hp hd hnode
      omega
  · intro g hg
    apply reclaimed_held h.heap hf hv (h.pinned g hg)
    intro he
    subst he
    have := hpin g hg hv
    omega
  · intro w
    have hc := h.counts w
    have hsum : tableRefs (reclaimed file vn s) n w = tableRefs s n w := rfl
    rw [hsum]
    by_cases hw : w = vn
    · subst hw
      simp [reclaimed]
      omega
    · simpa [reclaimed, update_of_ne hw, plus, pointsTo, Ne.symm hw] using hc

theorem freeDesc_owned {d vn : ℕ} (h : Owned n hand held s) (h3 : 3 ≤ d)
    (hv : descNode s d = some vn) (hz : tableRefs s n vn = 0) :
    Owned n hand held { s with descs := s.descs.free d } := by
  have hnode : ∀ e, descNode { s with descs := s.descs.free d } e = descNode s e := fun _ => rfl
  obtain ⟨h3', h4, h5, h6, h7, h8, h9, h10, h11⟩ := h.heap
  refine ⟨⟨h3', ?_, h5, h6, h7, h8, h9, h10, h11⟩, ?_, h.pinned, h.counts⟩
  · intro i hi
    have hne : i ≠ d := by omega
    simpa only [Store.free_get hne] using h4 i hi
  · intro p hp i e he
    rcases h.slots p hp i e he with hstd | ⟨h3e, hl, fd, hfd, hheld⟩
    · exact .inl hstd
    · refine .inr ⟨h3e, ?_, fd, hfd, hheld⟩
      have hne : e ≠ d := by
        intro heq
        subst heq
        have hpos : 0 < tableRefs s n vn := tableRefs_pos hp he hv
        omega
      simpa [Store.free, update_of_ne hne] using hl

theorem user_node (h : Heaps s) {file : ℕ} (hf : Held s file) :
    ∃ f vn, s.files.get file = some f ∧ f.isStandard = false ∧ f.node = some vn ∧
      fileNode s file = some vn := by
  obtain ⟨h3, hl, -⟩ := hf
  obtain ⟨f, hcell⟩ := s.files.live_cell file hl
  obtain ⟨hstd, vn, hnode⟩ := h.user_file file f h3 hcell
  exact ⟨f, vn, Store.get_some.mpr ⟨hl, hcell⟩, hstd, hnode, by simp [fileNode, hcell, hnode]⟩

/-- `file_destroy` on an open file never faults; it removes the file exactly
when the vnode's count is one. -/
theorem fileDestroy_held (h : Heaps s) {file vn : ℕ} (hf : Held s file)
    (hv : fileNode s file = some vn) (hpos : s.refcount vn ≠ 0) :
    fileDestroy file s = .ok (if s.refcount vn = 1 then (true, reclaimed file vn s)
      else (false, { s with refcount := update s.refcount vn (s.refcount vn-1) })) := by
  obtain ⟨f, w, hget, hstd, hnode, hw⟩ := user_node h hf
  have hwv : w = vn := by
    rw [hw] at hv
    exact Option.some.inj hv
  subst hwv
  by_cases hone : s.refcount w = 1
  · simp [fileDestroy, hget, hstd, hnode, vfsClose, vnodeDecref, hone, reclaimed]
  · simp [fileDestroy, hget, hstd, hnode, vfsClose, vnodeDecref, hpos, hone]

theorem fileDestroy_owned {file vn : ℕ} (h : Owned n (plus hand (some vn)) held s)
    (hf : Held s file) (hv : fileNode s file = some vn)
    (hpin : ∀ g, held g → fileNode s g = some vn → 0 < hand vn) :
    ∃ b s', FileTable.fileDestroy file s = .ok (b, s') ∧ Owned n hand held s' := by
  obtain ⟨c, hdec, hc, hdown⟩ := h.decref
  have hpos : s.refcount vn ≠ 0 := by
    intro hz
    simp [vnodeDecref, hz] at hdec
  have heq := fileDestroy_held h.heap hf hv hpos
  by_cases hone : s.refcount vn = 1
  · rw [if_pos hone] at heq
    exact ⟨true, _, heq, reclaim_owned h hf hv hone hpin⟩
  · rw [if_neg hone] at heq
    subst hc
    exact ⟨false, _, heq, hdown⟩

/-- What `file_desc_destroy` leaves behind, given where the descriptor leads. -/
def dropped (d file vn : ℕ) (s : State) : State :=
  if s.refcount vn = 1 then { reclaimed file vn s with descs := s.descs.free d }
  else { s with refcount := update s.refcount vn (s.refcount vn-1) }

theorem validDesc_user {d : ℕ} (hd : ValidDesc s d) (h3 : 3 ≤ d) (h : Heaps s) :
    ∃ fd vn, s.descs.get d = some fd ∧ Held s fd.file ∧ fileNode s fd.file = some vn ∧
      descNode s d = some vn := by
  rcases hd with hlt | ⟨-, hl, fd, hfd, hheld⟩
  · omega
  · obtain ⟨f, vn, -, -, -, hv⟩ := user_node h hheld
    exact ⟨fd, vn, Store.get_some.mpr ⟨hl, hfd⟩, hheld, hv, by simp [descNode, hfd, hv]⟩

theorem fileDescDestroy_user (h : Heaps s) {d vn : ℕ} {fd : FileDesc} (h3 : 3 ≤ d)
    (hget : s.descs.get d = some fd) (hf : Held s fd.file) (hv : fileNode s fd.file = some vn)
    (hpos : s.refcount vn ≠ 0) : fileDescDestroy d s = .ok (dropped d fd.file vn s) := by
  have hne : ¬ (d = stdinFd ∨ d = stdoutFd ∨ d = stderrFd) := by
    simp only [stdinFd, stdoutFd, stderrFd]
    omega
  by_cases hone : s.refcount vn = 1
  · simp [fileDescDestroy, hne, hget, fileDestroy_held h hf hv hpos, hone, dropped, reclaimed]
  · simp [fileDescDestroy, hne, hget, fileDestroy_held h hf hv hpos, hone, dropped]

theorem fileDescDestroy_std {d : ℕ} (hd : d < 3) : fileDescDestroy d s = .ok s := by
  have heq : d = stdinFd ∨ d = stdoutFd ∨ d = stderrFd := by
    simp only [stdinFd, stdoutFd, stderrFd]
    omega
  simp [fileDescDestroy, heq]

theorem std_node (h : Heaps s) {d : ℕ} (hd : d < 3) : descNode s d = none := by
  obtain ⟨flags, hget⟩ := h.std_desc d hd
  have hfile := h.std_file d hd
  simp [descNode, fileNode, (Store.get_some.mp hget).2, (Store.get_some.mp hfile).2]

theorem plus_none (hand : ℕ → ℕ) : plus hand none = hand := by
  funext vn
  simp [plus, pointsTo]

/-- `file_desc_destroy` gives back the reference in the hand. -/
theorem fileDescDestroy_owned {d : ℕ} (h : Owned n (plus hand (descNode s d)) held s)
    (hd : ValidDesc s d)
    (hpin : ∀ g vn, held g → fileNode s g = some vn → 0 < hand vn) :
    ∃ s', FileTable.fileDescDestroy d s = .ok s' ∧ Owned n hand held s' := by
  by_cases hlt : d < 3
  · rw [std_node h.heap hlt, plus_none] at h
    exact ⟨s, fileDescDestroy_std hlt, h⟩
  · have h3 : 3 ≤ d := by omega
    obtain ⟨fd, vn, hget, hheld, hv, hnode⟩ := validDesc_user hd h3 h.heap
    rw [hnode] at h
    obtain ⟨c, hdec, hc, hdown⟩ := h.decref
    have hpos : s.refcount vn ≠ 0 := by
      intro hz
      simp [vnodeDecref, hz] at hdec
    refine ⟨_, fileDescDestroy_user h.heap h3 hget hheld hv hpos, ?_⟩
    by_cases hone : s.refcount vn = 1
    · have hrec := reclaim_owned h hheld hv hone (fun g hg hgv => hpin g vn hg hgv)
      have hz : tableRefs s n vn = 0 := by
        have hcount := h.counts vn
        simp [plus, pointsTo] at hcount
        omega
      rw [dropped, if_pos hone]
      exact freeDesc_owned hrec h3 hnode hz
    · rw [dropped, if_neg hone]
      subst hc
      exact hdown

/-- Closing changes no local table and no contents of a cell: what an address
leads to stays the same. -/
structure Frame (s s' : State) : Prop where
  locals : s'.locals = s.locals
  files : s'.files.cell = s.files.cell
  descs : s'.descs.cell = s.descs.cell

theorem Frame.fileNode {s' : State} (h : Frame s s') (f : ℕ) : fileNode s' f = fileNode s f := by
  simp [FileOwnership.fileNode, h.files]

theorem Frame.descNode {s' : State} (h : Frame s s') (d : ℕ) : descNode s' d = descNode s d := by
  simp [FileOwnership.descNode, h.descs, h.fileNode]

theorem Frame.slot {s' : State} (h : Frame s s') (p : ℕ) (i : Handle) : s'.slot p i = s.slot p i := by
  simp [State.slot, h.locals]

theorem fileDestroy_frame {file : ℕ} {b : Bool} {s' : State}
    (h : FileTable.fileDestroy file s = .ok (b, s')) : Frame s s' := by
  unfold FileTable.fileDestroy at h
  split at h
  · cases h
  · split at h
    · cases h
      exact ⟨rfl, rfl, rfl⟩
    · split at h
      · cases h
      · split at h
        · cases h
        · split at h <;> cases h <;> exact ⟨rfl, rfl, rfl⟩

theorem fileDescDestroy_frame {d : ℕ} {s' : State} (h : FileTable.fileDescDestroy d s = .ok s') :
    Frame s s' := by
  unfold FileTable.fileDescDestroy at h
  split at h
  · cases h
    exact ⟨rfl, rfl, rfl⟩
  · split at h
    · cases h
    · next fd hfd =>
      cases hr : FileTable.fileDestroy fd.file s with
      | error e => simp [hr] at h
      | ok r =>
        obtain ⟨b, t⟩ := r
        have hframe := fileDestroy_frame hr
        simp only [hr, Except.ok.injEq] at h
        subst h
        split
        · exact ⟨hframe.locals, hframe.files, hframe.descs⟩
        · exact hframe

/-- Closing an occupied slot of a live table cannot fault and leaves every
other reference accounted for. -/
theorem closeSlot_owned {p d : ℕ} {i : Handle} (h : Owned n hand held s) (hp : p < n)
    (hd : s.slot p i = some d)
    (hpin : ∀ g vn, held g → fileNode s g = some vn → 0 < hand vn) :
    ∃ s', FileTable.closeSlot p i s = .ok (none, s') ∧ Owned n hand held s' := by
  have hcl := (h.clear hp hd).setNum p ((s.locals p).numOpenFiles-1)
  have hvalid : ValidDesc ((s.setSlot p i none).setNum p ((s.locals p).numOpenFiles-1)) d :=
    h.slots p hp i d hd
  obtain ⟨s', hs', ho⟩ := fileDescDestroy_owned hcl hvalid hpin
  exact ⟨s', by simp [FileTable.closeSlot, hd, hs'], ho⟩

theorem closeSlot_spec {p d : ℕ} {i : Handle} {s' : State} {r : Option Errno}
    (hd : s.slot p i = some d) (h : FileTable.closeSlot p i s = .ok (r, s')) :
    r = none ∧ s'.files.cell = s.files.cell ∧ s'.descs.cell = s.descs.cell ∧
      ∀ q j, s'.slot q j = if q = p ∧ j = i then none else s.slot q j := by
  simp only [FileTable.closeSlot, hd] at h
  cases hr : FileTable.fileDescDestroy d
      ((s.setSlot p i none).setNum p ((s.locals p).numOpenFiles-1)) with
  | error e => simp [hr] at h
  | ok t =>
    simp only [hr, Except.ok.injEq, Prod.mk.injEq] at h
    obtain ⟨rfl, rfl⟩ := h
    have hframe := fileDescDestroy_frame hr
    refine ⟨rfl, hframe.files, hframe.descs, ?_⟩
    intro q j
    rw [hframe.slot, setNum_slot, setSlot_slot]

theorem closeSlots_spec {p : ℕ} {is : List Handle} {s' : State}
    (h : FileTable.closeSlots p is s = .ok s') :
    s'.files.cell = s.files.cell ∧ s'.descs.cell = s.descs.cell ∧
      ∀ q j, s'.slot q j = if q = p ∧ j ∈ is then none else s.slot q j := by
  induction is generalizing s with
  | nil =>
    cases h
    simp
  | cons i is ih =>
    have hcombine : ∀ (t : State) q j, (∀ q j, t.slot q j = (s.setSlot p i none).slot q j) →
        (if q = p ∧ j ∈ is then none else t.slot q j) =
          if q = p ∧ j ∈ i::is then none else s.slot q j := by
      intro t q j ht
      rw [ht, setSlot_slot]
      by_cases hq : q = p <;> by_cases hj : j = i <;> by_cases hm : j ∈ is <;> simp [hq, hj, hm]
    simp only [FileTable.closeSlots] at h
    split at h
    · obtain ⟨hf, hd, hslot⟩ := ih h
      refine ⟨hf, hd, ?_⟩
      intro q j
      rw [hslot, hcombine _ q j (fun _ _ => rfl)]
    · next d hd =>
      split at h
      · cases h
      · next t ht =>
        have hframe := fileDescDestroy_frame ht
        obtain ⟨hf, hd, hslot⟩ := ih h
        refine ⟨hf.trans hframe.files, hd.trans hframe.descs, ?_⟩
        intro q j
        rw [hslot, hcombine _ q j (fun q j => hframe.slot q j)]

theorem setSlot_none_self {p : ℕ} {i : Handle} (h : s.slot p i = none) : s.setSlot p i none = s := by
  have hfiles : update (s.locals p).files i none = (s.locals p).files := by
    rw [update_eq_self_iff]
    exact h.symm
  simp [State.setSlot, hfiles]

theorem closeSlots_owned {p : ℕ} (hp : p < n) (is : List Handle) (h : Owned n hand held s)
    (hpin : ∀ g vn, held g → fileNode s g = some vn → 0 < hand vn) :
    ∃ s', FileTable.closeSlots p is s = .ok s' ∧ Owned n hand held s' := by
  induction is generalizing s with
  | nil => exact ⟨s, rfl, h⟩
  | cons i is ih =>
    cases hd : s.slot p i with
    | none =>
      simp only [FileTable.closeSlots, hd, setSlot_none_self hd]
      exact ih h hpin
    | some d =>
      have hvalid : ValidDesc (s.setSlot p i none) d := h.slots p hp i d hd
      obtain ⟨t, ht, ho⟩ := fileDescDestroy_owned (h.clear hp hd) hvalid hpin
      have hframe := fileDescDestroy_frame ht
      simp only [FileTable.closeSlots, hd, ht]
      exact ih ho (fun g vn hg hv => hpin g vn hg (by rwa [hframe.fileNode] at hv))

end OS161.FileClosing
