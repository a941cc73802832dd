import OS161.FileActions

/-!
# The count beside the slots of a local table

`num_open_files` is kept in step with the slots by every table function except
`local_table_add_file`, which fills a slot and leaves the count alone.
-/

set_option autoImplicit false

namespace OS161.LocalCounts

open Function OS161.Slots OS161.Vfs OS161.FileTable OS161.FileOwnership
open OS161.FileClosing OS161.FileOpening OS161.FileRuns OS161.FileActions

/-- Slots in use beyond what the count says. -/
def gap (s : State) (p : ℕ) : ℤ := occupied (s.locals p).files - (s.locals p).numOpenFiles

variable {s s' : State}

theorem gap_locals (h : s'.locals = s.locals) (q : ℕ) : gap s' q = gap s q := by
  simp [gap, h]

theorem gap_setNum (s : State) (p : ℕ) (k : ℤ) (q : ℕ) :
    gap (s.setNum p k) q = if q = p then occupied (s.locals p).files - k else gap s q := by
  by_cases hq : q = p
  · subst hq
    simp only [gap, State.setNum, update_self, if_true]
  · simp only [gap, State.setNum, update_of_ne hq, if_neg hq]

theorem gap_clear {p d : ℕ} {i : Handle} (hd : s.slot p i = some d) (q : ℕ) :
    gap (s.setSlot p i none) q = if q = p then gap s p - 1 else gap s q := by
  by_cases hq : q = p
  · subst hq
    have hw := weight_clear (w := fun _ => 1) (t := (s.locals q).files) hd
    simp only [gap, setSlot_local_self, setSlot_num, occupied, if_true]
    omega
  · simp [gap, setSlot_local_ne s hq, hq]

theorem gap_put {p d : ℕ} {i : Handle} (hi : s.slot p i = none) (q : ℕ) :
    gap (s.setSlot p i (some d)) q = if q = p then gap s p + 1 else gap s q := by
  by_cases hq : q = p
  · subst hq
    have hw := weight_put (w := fun _ => 1) (t := (s.locals q).files) hi d
    simp only [gap, setSlot_local_self, setSlot_num, occupied, if_true]
    omega
  · simp [gap, setSlot_local_ne s hq, hq]

theorem closeSlot_gap {p : ℕ} {i : Handle} {r : Option Errno} (h : closeSlot p i s = .ok (r, s'))
    (q : ℕ) : gap s' q = gap s q := by
  cases hd : s.slot p i with
  | none =>
    simp only [closeSlot, hd, Except.ok.injEq, Prod.mk.injEq] at h
    rw [h.2]
  | some d =>
    simp only [closeSlot, hd] at h
    cases hf : fileDescDestroy d ((s.setSlot p i none).setNum p ((s.locals p).numOpenFiles-1)) with
    | error e => simp [hf] at h
    | ok u =>
      simp only [hf, Except.ok.injEq, Prod.mk.injEq] at h
      rw [← h.2, gap_locals (fileDescDestroy_frame hf).locals, gap_setNum]
      have hc := gap_clear hd q
      by_cases hq : q = p
      · subst hq
        simp only [gap, setSlot_num, if_true] at *
        omega
      · simpa [hq] using hc

theorem dupInto_gap {p d : ℕ} {i : Handle} (hi : s.slot p i = none) (h : dupInto p i d s = .ok s')
    (q : ℕ) : gap s' q = gap s q := by
  rw [gap_locals (dupInto_frame h).2, gap_setNum]
  have hput := gap_put (d := d) hi q
  by_cases hq : q = p
  · subst hq
    simp only [gap, setSlot_num, if_true] at *
    omega
  · simpa [hq] using hput

theorem localTableDup2_gap {p : ℕ} {old new : Handle} {r : Option Errno}
    (h : localTableDup2 p old new s = .ok (r, s')) (q : ℕ) : gap s' q = gap s q := by
  unfold localTableDup2 at h
  split at h
  · cases h
    rfl
  · cases hd : s.slot p old with
    | none =>
      simp only [hd, Except.ok.injEq, Prod.mk.injEq] at h
      rw [h.2]
    | some d =>
      cases hn : s.slot p new with
      | none =>
        simp only [hd, hn] at h
        cases hdup : dupInto p new d s with
        | error e => simp [hdup, Except.map] at h
        | ok u =>
          simp only [hdup, Except.map, Except.ok.injEq, Prod.mk.injEq] at h
          rw [← h.2]
          exact dupInto_gap hn hdup q
      | some e =>
        cases hcl : closeSlot p new s with
        | error stop => simp [hd, hn, hcl] at h
        | ok ru =>
          obtain ⟨err, u⟩ := ru
          obtain ⟨rfl, -, -, hslot⟩ := closeSlot_spec hn hcl
          have hu : u.slot p new = none := by
            rw [hslot, if_pos ⟨rfl, rfl⟩]
          simp only [hd, hn, hcl] at h
          cases hdup : dupInto p new d u with
          | error e => simp [hdup, Except.map] at h
          | ok v =>
            simp only [hdup, Except.map, Except.ok.injEq, Prod.mk.injEq] at h
            rw [← h.2, dupInto_gap hu hdup q]
            exact closeSlot_gap hcl q

theorem sysClose_gap {p : ℕ} {fd : ℤ} {r : Option Errno} (h : sysClose p fd s = .ok (r, s')) (q : ℕ) :
    gap s' q = gap s q := by
  simp only [sysClose, localTableCloseFile, nonLockCloseFile] at h
  split at h
  · cases h
    rfl
  · split at h
    · exact closeSlot_gap h q
    · cases h
      rfl

theorem sysDup2_gap {p : ℕ} {oldfd newfd : ℤ} {r : Option Errno × ℤ × State}
    (h : sysDup2 p oldfd newfd s = .ok r) (q : ℕ) : gap r.2.2 q = gap s q := by
  unfold sysDup2 at h
  split at h
  · cases h
    rfl
  · cases hd : localTableDup2 p ⟨oldfd.toNat, by omega⟩ ⟨newfd.toNat, by omega⟩ s with
    | error e => simp [hd] at h
    | ok ru =>
      obtain ⟨err, u⟩ := ru
      rw [hd] at h
      cases err <;> cases h <;> exact localTableDup2_gap hd q

theorem closeSlots_num {p : ℕ} {is : List Handle} (h : closeSlots p is s = .ok s') (q : ℕ) :
    (s'.locals q).numOpenFiles = (s.locals q).numOpenFiles := by
  induction is generalizing s with
  | nil =>
    cases h
    rfl
  | cons i is ih =>
    simp only [closeSlots] at h
    split at h
    · rw [ih h, setSlot_num]
    · next d hd =>
      cases hf : fileDescDestroy d (s.setSlot p i none) with
      | error e => simp [hf] at h
      | ok u =>
        simp only [hf] at h
        rw [ih h, (fileDescDestroy_frame hf).locals, setSlot_num]

theorem closeSlots_other {p q : ℕ} {is : List Handle} (h : closeSlots p is s = .ok s')
    (hq : q ≠ p) : s'.locals q = s.locals q := by
  obtain ⟨-, -, hslot⟩ := closeSlots_spec h
  have hfiles : (s'.locals q).files = (s.locals q).files := by
    funext j
    have hj := hslot q j
    rwa [if_neg (fun hqj => hq hqj.1)] at hj
  have hnum := closeSlots_num h q
  cases hl : s'.locals q
  cases hl' : s.locals q
  simp_all

theorem localTableCloseAll_gap {p : ℕ} (h : localTableCloseAll p s = .ok s') (q : ℕ) :
    gap s' q = if q = p then 0 else gap s q := by
  unfold localTableCloseAll at h
  cases hcl : closeSlots p (List.finRange _) s with
  | error e => simp [hcl] at h
  | ok u =>
    simp only [hcl, Except.ok.injEq] at h
    subst h
    rw [gap_setNum]
    by_cases hq : q = p
    · subst hq
      have hempty : (u.locals q).files = SlotArray.empty := by
        funext j
        have hj := (closeSlots_spec hcl).2.2 q j
        rwa [if_pos ⟨rfl, List.mem_finRange j⟩] at hj
      simp [hempty, occupied]
    · simp [hq, gap, closeSlots_other hcl hq]

theorem increfSlots_locals {p : ℕ} {is : List Handle} (h : increfSlots p is s = .ok s') :
    s'.locals = s.locals := by
  induction is generalizing s with
  | nil =>
    cases h
    rfl
  | cons i is ih =>
    simp only [increfSlots] at h
    split at h
    · exact ih h
    · split at h
      · cases h
      · exact ih h
      · split at h
        · cases h
        · have hrest := ih h
          exact hrest

theorem localTableCopy_gap {p n : ℕ} (hpn : p ≠ n) (h : localTableCopy p n s = .ok s') (q : ℕ) :
    gap s' q = if q = n then gap s p else gap s q := by
  simp only [localTableCopy] at h
  split at h
  · cases h
  · next u hu =>
    cases h
    have hl := increfSlots_locals hu
    rw [gap_setNum]
    by_cases hq : q = n
    · simp only [hq, hl, gap, update_self, update_of_ne hpn, if_true]
    · simp only [hl, gap, update_of_ne hq, if_neg hq]

/-- Whether `local_table_add_file` goes on to store the descriptor. -/
def stores (p : ℕ) (mem : Bool) (s : State) : Prop :=
  (s.locals p).numOpenFiles ≠ MAX_LOCAL_TABLE_SIZE ∧ mem = true ∧ ∃ i, s.slot p i = none
  deriving Decidable

theorem localTableAddFile_gap (p file flags : ℕ) (mem : Bool) (s : State) (q : ℕ) :
    gap (localTableAddFile p file flags mem s).2 q =
      if q = p ∧ stores p mem s then gap s p + 1 else gap s q := by
  have hl : (described file flags s).locals = s.locals := rfl
  by_cases hfull : (s.locals p).numOpenFiles = MAX_LOCAL_TABLE_SIZE
  · rw [addFile_full hfull, if_neg (fun hx => hx.2.1 hfull)]
  · cases mem with
    | false =>
      rw [addFile_noMem hfull, if_neg]
      rintro ⟨-, -, hm, -⟩
      cases hm
    | true =>
      cases hi : firstFree (s.locals p).files with
      | none =>
        rw [addFile_noSlot hfull hi, gap_locals hl, if_neg]
        rintro ⟨-, -, -, i, hx⟩
        exact firstFree_eq_none.mp hi i hx
      | some i =>
        have hfree : (described file flags s).slot p i = none := (firstFree_eq_some.mp hi).1
        have hst : stores p true s := ⟨hfull, rfl, i, hfree⟩
        rw [addFile_slot hfull hi, gap_put hfree, gap_locals hl, gap_locals hl]
        simp [hst]

end OS161.LocalCounts
