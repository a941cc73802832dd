import OS161.FileSafety

/-!
# Duplicating a descriptor

`sys_dup2` checks both numbers, `local_table_dup2` returns at once if they are
the same, and otherwise empties the target slot before it fills it. In tables
whose references are all accounted for this does what it should, except that a
closed descriptor is duplicated onto itself with success.
-/

set_option autoImplicit false

namespace OS161.Dup2

open Function OS161.Slots OS161.Vfs OS161.FileTable OS161.FileOwnership OS161.FileClosing OS161.FileOpening
open OS161.FileActions (dupInto_frame dupInto_slot)

/-- What the table and the counts look like once `desc` is in slot `new` too.
The vnode of the slot's last occupant, if there was one, has one reference less. -/
structure Duplicated (p : ℕ) (new : Handle) (desc : ℕ) (s s' : State) : Prop where
  target : s'.slot p new = some desc
  others : ∀ q j, ¬(q = p ∧ j = new) → s'.slot q j = s.slot q j
  refcount : ∀ vn, s'.refcount vn + (s.slot p new).elim 0 (fun d => pointsTo (descNode s d) vn) =
    s.refcount vn + pointsTo (descNode s desc) vn
  descs : ∀ d, d = desc ∨ s.slot p new ≠ some d → s'.descs.get d = s.descs.get d

/-- Both numbers are in range and the first is that of an open descriptor. -/
def Duplicable (p : ℕ) (oldfd newfd : ℤ) (s : State) (new : Handle) (desc : ℕ) : Prop :=
  newfd = new ∧ ∃ old : Handle, oldfd = old ∧ s.slot p old = some desc

def Dup2Right (p : ℕ) (oldfd newfd : ℤ) (s : State) : Prop :=
  (∃ new desc, Duplicable p oldfd newfd s new desc ∧
      ∃ s', sysDup2 p oldfd newfd s = .ok (none, newfd, s') ∧ Duplicated p new desc s s') ∨
    ((¬∃ new desc, Duplicable p oldfd newfd s new desc) ∧
      ∃ retval, sysDup2 p oldfd newfd s = .ok (some .ebadf, retval, s))

/-- A closed descriptor and itself. -/
def SameClosed (p : ℕ) (oldfd newfd : ℤ) (s : State) : Prop :=
  oldfd = newfd ∧ ∃ i : Handle, oldfd = i ∧ s.slot p i = none

variable {n p d desc : ℕ} {hand : ℕ → ℕ} {held : ℕ → Prop} {s s' : State} {old new i : Handle} {oldfd newfd : ℤ}

theorem fileDestroy_descs {file : ℕ} {b : Bool} (h : fileDestroy file s = .ok (b, s')) : s'.descs = s.descs := by
  unfold fileDestroy at h
  split at h
  · cases h
  · split at h
    · cases h
      rfl
    · split at h
      · cases h
      · split at h
        · cases h
        · split at h <;> cases h <;> rfl

/-- Closing frees at most the descriptor that is closed. -/
theorem fileDescDestroy_descs {e : ℕ} (h : fileDescDestroy d s = .ok s') (he : e ≠ d) :
    s'.descs.get e = s.descs.get e := by
  unfold fileDescDestroy at h
  split at h
  · cases h
    rfl
  · split at h
    · cases h
    · next fd hfd =>
      cases hr : fileDestroy fd.file s with
      | error stop => simp [hr] at h
      | ok r =>
        obtain ⟨b, t⟩ := r
        have hdescs := fileDestroy_descs hr
        simp only [hr, Except.ok.injEq] at h
        subst h
        split
        · rw [← hdescs]
          exact Store.free_get he
        · rw [hdescs]

theorem closeSlot_descs {e : ℕ} {r : Option Errno} (hd : s.slot p i = some d) (h : closeSlot p i s = .ok (r, s'))
    (he : e ≠ d) : s'.descs.get e = s.descs.get e := by
  simp only [closeSlot, hd] at h
  cases hr : fileDescDestroy d ((s.setSlot p i none).setNum p ((s.locals p).numOpenFiles-1)) with
  | error stop => simp [hr] at h
  | ok t =>
    simp only [hr, Except.ok.injEq, Prod.mk.injEq] at h
    rw [← h.2, fileDescDestroy_descs hr he]
    simp

/-- Where slots and cells have changed in one place, so have the references. -/
theorem counts_change (h : Owned n hand held s) (h' : Owned n hand held s') (hp : p < n)
    (hnode : ∀ e, descNode s' e = descNode s e)
    (hslot : ∀ q j, s'.slot q j = if q = p ∧ j = new then some desc else s.slot q j) (vn : ℕ) :
    s'.refcount vn + (s.slot p new).elim 0 (fun d => pointsTo (descNode s d) vn) =
      s.refcount vn + pointsTo (descNode s desc) vn := by
  have hsame : tableRefs s' n vn = tableRefs (s.setSlot p new (some desc)) n vn := by
    apply total_congr
    intro q _
    have hfiles : (s'.locals q).files = ((s.setSlot p new (some desc)).locals q).files := by
      funext j
      have hj := hslot q j
      rw [← setSlot_slot] at hj
      exact hj
    have hnodes : descNode s' = descNode (s.setSlot p new (some desc)) := by
      funext e
      rw [hnode e, (sameHeap_setSlot s p new (some desc)).descNode]
    simp only [slotRefs, hfiles, hnodes]
  have hmoved := tableRefs_setSlot s hp new (some desc) vn
  rw [Option.elim_some] at hmoved
  have hcount := h.counts vn
  have hcount' := h'.counts vn
  rw [hsame] at hcount'
  omega

/-- The descriptor in a slot of a table is allocated, and what is in its cell does not change. -/
theorem live_get (h' : Owned n hand held s') (hp : p < n) (hslot : s'.slot p new = some d)
    (hcell : s'.descs.cell = s.descs.cell) (hold : ∃ fd, s.descs.get d = some fd) :
    s'.descs.get d = s.descs.get d := by
  obtain ⟨fd, hfd⟩ := hold
  have hlive : s'.descs.live d = true := by
    have hvalid := h'.slots p hp new d hslot
    obtain hlt | ⟨-, hl, -⟩ := hvalid
    · obtain ⟨flags, hget⟩ := h'.heap.std_desc d hlt
      exact (Store.get_some.mp hget).1
    · exact hl
  rw [hfd]
  exact Store.get_some.mpr ⟨hlive, by rw [hcell]; exact (Store.get_some.mp hfd).2⟩

theorem valid_get (h : Heaps s) (hd : ValidDesc s d) : ∃ fd, s.descs.get d = some fd := by
  obtain hlt | ⟨-, hl, fd, hfd, -⟩ := hd
  · obtain ⟨flags, hget⟩ := h.std_desc d hlt
    exact ⟨_, hget⟩
  · exact ⟨fd, Store.get_some.mpr ⟨hl, hfd⟩⟩

theorem dup2_free (h : Owned n hand held s) (hp : p < n) (hne : old ≠ new) (hold : s.slot p old = some desc)
    (hnew : s.slot p new = none) : ∃ s', localTableDup2 p old new s = .ok (none, s') ∧ Duplicated p new desc s s' := by
  obtain ⟨s', hdup, ho⟩ := dupInto_owned h hp hnew (h.slots p hp old desc hold)
    (fun vn hv => refcount_pos h hp hold hv)
  have hsame := (dupInto_frame hdup).1
  have hslot : ∀ q j, s'.slot q j = if q = p ∧ j = new then some desc else s.slot q j := by
    intro q j
    rw [dupInto_slot hdup, setSlot_slot]
  refine ⟨s', by simp [localTableDup2, hne, hold, hnew, hdup, Except.map], ?_⟩
  refine ⟨by rw [hslot, if_pos ⟨rfl, rfl⟩], ?_, ?_, ?_⟩
  · intro q j hqj
    rw [hslot, if_neg hqj]
  · exact counts_change h ho hp (fun e => by rw [hsame.descNode]) hslot
  · intro e _
    rw [hsame.descs]

theorem dup2_occupied {e : ℕ} (h : Owned n hand held s) (hp : p < n)
    (hpin : ∀ g vn, held g → fileNode s g = some vn → 0 < hand vn) (hne : old ≠ new)
    (hold : s.slot p old = some desc) (hnew : s.slot p new = some e) :
    ∃ s', localTableDup2 p old new s = .ok (none, s') ∧ Duplicated p new desc s s' := by
  obtain ⟨t, hclose, ht⟩ := closeSlot_owned h hp hnew hpin
  obtain ⟨-, hfiles, hcells, htslot⟩ := closeSlot_spec hnew hclose
  have hold' : t.slot p old = some desc := by
    rw [htslot, if_neg (fun hx => hne hx.2)]
    exact hold
  have hnew' : t.slot p new = none := by
    rw [htslot, if_pos ⟨rfl, rfl⟩]
  obtain ⟨s', hdup, ho⟩ := dupInto_owned ht hp hnew' (ht.slots p hp old desc hold')
    (fun vn hv => refcount_pos ht hp hold' hv)
  have hsame := (dupInto_frame hdup).1
  have hslot : ∀ q j, s'.slot q j = if q = p ∧ j = new then some desc else s.slot q j := by
    intro q j
    rw [dupInto_slot hdup, setSlot_slot, htslot]
    split <;> rfl
  have hnode : ∀ d, descNode s' d = descNode s d := by
    intro d
    rw [hsame.descNode]
    simp [descNode, fileNode, hfiles, hcells]
  have htarget : s'.slot p new = some desc := by rw [hslot, if_pos ⟨rfl, rfl⟩]
  refine ⟨s', by simp [localTableDup2, hne, hold, hnew, hclose, hdup, Except.map], htarget, ?_, ?_, ?_⟩
  · intro q j hqj
    rw [hslot, if_neg hqj]
  · exact counts_change h ho hp hnode hslot
  · rintro d (rfl | hd)
    · exact live_get ho hp htarget (by rw [hsame.descs, hcells]) (valid_get h.heap (h.slots p hp old d hold))
    · rw [hsame.descs]
      have hde : d ≠ e := by
        rintro rfl
        exact hd hnew
      exact closeSlot_descs hnew hclose hde

/-- Different slots: the first is duplicated if it is open. -/
theorem dup2_different (h : Owned n hand held s) (hp : p < n)
    (hpin : ∀ g vn, held g → fileNode s g = some vn → 0 < hand vn) (hne : old ≠ new)
    (hold : s.slot p old = some desc) :
    ∃ s', localTableDup2 p old new s = .ok (none, s') ∧ Duplicated p new desc s s' := by
  cases hnew : s.slot p new with
  | none => exact dup2_free h hp hne hold hnew
  | some e => exact dup2_occupied h hp hpin hne hold hnew

/-- An open slot and itself: nothing changes. -/
theorem duplicated_self (hold : s.slot p new = some desc) : Duplicated p new desc s s :=
  ⟨hold, fun _ _ _ => rfl, fun vn => by rw [hold]; rfl, fun _ _ => rfl⟩

/-- In range, the call is `local_table_dup2`. -/
theorem sysDup2_range (old new : Handle) (s : State) : sysDup2 p old new s =
    match localTableDup2 p old new s with
    | .error e => .error e
    | .ok (some err, s') => .ok (some err, -1, s')
    | .ok (none, s') => .ok (none, new, s') := by
  have hr : ¬((old : ℤ) ≥ MAX_LOCAL_TABLE_SIZE ∨ (old : ℤ) < 0 ∨ (new : ℤ) ≥ MAX_LOCAL_TABLE_SIZE ∨ (new : ℤ) < 0) := by
    omega
  exact dif_neg hr

theorem handle_of_range {k : ℤ} (h : ¬(k ≥ MAX_LOCAL_TABLE_SIZE ∨ k < 0)) : ∃ i : Handle, k = i := by
  have hlt : k.toNat < MAX_LOCAL_TABLE_SIZE := by omega
  exact ⟨⟨k.toNat, hlt⟩, by simp only; omega⟩

theorem not_duplicable (hold : s.slot p old = none) : ¬∃ new desc, Duplicable p old newfd s new desc := by
  rintro ⟨new, desc, -, old', heq, hopen⟩
  have hsame : old' = old := Fin.ext (by omega)
  rw [hsame, hold] at hopen
  cases hopen

theorem out_of_range (hr : oldfd ≥ MAX_LOCAL_TABLE_SIZE ∨ oldfd < 0 ∨ newfd ≥ MAX_LOCAL_TABLE_SIZE ∨ newfd < 0) :
    Dup2Right p oldfd newfd s := by
  right
  constructor
  · rintro ⟨new, desc, hnew, old, hold, -⟩
    omega
  · exact ⟨-1, by rw [sysDup2, dif_pos hr]⟩

/-- The shortcut for equal numbers is taken before the slot is looked at. -/
theorem sysDup2_self (i : Handle) (s : State) : sysDup2 p i i s = .ok (none, i, s) := by
  rw [sysDup2_range]
  simp only [localTableDup2, if_true]

theorem self_right : Dup2Right p i i s ↔ s.slot p i ≠ none := by
  constructor
  · rintro (⟨new, desc, ⟨-, old, hold, hopen⟩, -⟩ | ⟨-, retval, hcall⟩) hclosed
    · have hsame : old = i := Fin.ext (by omega)
      rw [hsame, hclosed] at hopen
      cases hopen
    · rw [sysDup2_self] at hcall
      cases hcall
  · intro hopen
    obtain ⟨desc, hdesc⟩ := Option.ne_none_iff_exists'.mp hopen
    exact .inl ⟨i, desc, ⟨rfl, i, rfl, hdesc⟩, s, sysDup2_self i s, duplicated_self hdesc⟩

theorem different_right (h : Owned n hand (fun _ => False) s) (hp : p < n) (hne : old ≠ new) :
    Dup2Right p old new s := by
  cases hold : s.slot p old with
  | none =>
    right
    refine ⟨not_duplicable hold, -1, ?_⟩
    rw [sysDup2_range]
    simp [localTableDup2, hne, hold]
  | some desc =>
    obtain ⟨s', hcall, hdup⟩ := dup2_different h hp (fun _ _ hf => hf.elim) hne hold
    left
    refine ⟨new, desc, ⟨rfl, old, rfl, hold⟩, s', ?_, hdup⟩
    rw [sysDup2_range, hcall]

/-- `sys_dup2` is right in every table with its references accounted for,
except for a closed descriptor and itself. -/
theorem dup2Right_iff (h : Owned n hand (fun _ => False) s) (hp : p < n) :
    Dup2Right p oldfd newfd s ↔ ¬SameClosed p oldfd newfd s := by
  by_cases hr : oldfd ≥ MAX_LOCAL_TABLE_SIZE ∨ oldfd < 0 ∨ newfd ≥ MAX_LOCAL_TABLE_SIZE ∨ newfd < 0
  · apply iff_of_true (out_of_range hr)
    rintro ⟨heq, i, hi, -⟩
    omega
  obtain ⟨old, rfl⟩ := handle_of_range (k := oldfd) (by omega)
  obtain ⟨new, rfl⟩ := handle_of_range (k := newfd) (by omega)
  by_cases hne : old = new
  · subst hne
    rw [self_right]
    constructor
    · rintro hopen ⟨-, i, hi, hclosed⟩
      have hsame : i = old := Fin.ext (by omega)
      rw [hsame] at hclosed
      exact hopen hclosed
    · intro hnot hclosed
      exact hnot ⟨rfl, old, rfl, hclosed⟩
  · apply iff_of_true (different_right h hp hne)
    rintro ⟨heq, -⟩
    exact hne (Fin.ext (by omega))

/-- A process that has opened one file. -/
def oneFile : List FileRuns.Action :=
  [.runprogram (some 9), .openLookup 0 7 2, .openGlobal 0 true, .openLocal 0 true]

theorem oneFile_right : ∃ t, FileRuns.run oneFile (FileRuns.boot FileRuns.console) = .ok t ∧ ¬SameClosed 0 3 1 t.ft ∧
    Dup2Right 0 3 1 t.ft := by
  have hg : Runs.Guarded FileRuns.step FileSafety.Sound oneFile (FileRuns.boot FileRuns.console) := by decide +kernel
  have hr : ∃ t, FileRuns.run oneFile (FileRuns.boot FileRuns.console) = .ok t ∧ 0 < t.nprocs := by decide +kernel
  obtain ⟨t, hr, hp⟩ := hr
  have hnot : ¬SameClosed 0 3 1 t.ft := by
    rintro ⟨heq, -⟩
    omega
  have howned : Owned t.nprocs (FileAccounting.hand t) (fun _ => False) t.ft :=
    (FileSafety.run_accounted hg hr).owned.mono (fun _ hf => hf.elim)
  exact ⟨t, hr, hnot, (dup2Right_iff howned hp).mpr hnot⟩

/-- Nothing is open at 5, and duplicating it onto itself succeeds. -/
theorem closed_succeeds : ∃ t, FileRuns.run oneFile (FileRuns.boot FileRuns.console) = .ok t ∧ t.ft.slot 0 5 = none ∧
    sysDup2 0 5 5 t.ft = .ok (none, 5, t.ft) ∧ ¬Dup2Right 0 5 5 t.ft := by
  have hr : ∃ t, FileRuns.run oneFile (FileRuns.boot FileRuns.console) = .ok t ∧ t.ft.slot 0 5 = none := by
    decide +kernel
  obtain ⟨t, hr, hclosed⟩ := hr
  exact ⟨t, hr, hclosed, sysDup2_self 5 t.ft, fun hright => self_right.mp hright hclosed⟩

end OS161.Dup2
