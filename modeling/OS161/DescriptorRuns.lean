import OS161.DescriptorLife

/-!
# Every descriptor is in a slot

Closing, duplicating and exiting, and the run. As long as the last slot of a
descriptor is cleared only when the vnode has no other reference, and no
descriptor is allocated for a full table, every allocated descriptor is in a
slot: clearing its last slot frees it.
-/

set_option autoImplicit false

namespace OS161.DescriptorRuns

open Function OS161.Slots OS161.Vfs OS161.FileTable OS161.FileOwnership OS161.FileClosing
open OS161.FileOpening OS161.FileClearing OS161.FileRuns OS161.FileAccounting OS161.FileActions
open OS161.FileSafety OS161.GlobalTable OS161.DescriptorLife

variable {s s' : System}

theorem closeSlot_used {p d : ℕ} {i : Handle} {ft : State} (h : Used s.nprocs s.ft)
    (ha : Accounted s) (hp : p < s.nprocs) (hd : s.ft.slot p i = some d)
    (hlast : ∀ vn, descNode s.ft d = some vn → onlySlot s.nprocs s.ft p i d → s.ft.refcount vn = 1)
    (hcl : closeSlot p i s.ft = .ok (none, ft)) : Used s.nprocs ft := by
  apply h.clear hd (closeSlot_cleared ha.owned hp hd hcl)
  intro h3 honly
  obtain ⟨fd, vn, -, -, -, hv⟩ := validDesc_user (ha.owned.slots p hp i d hd) h3 ha.owned.heap
  exact ⟨vn, hv, hlast vn hv honly⟩

theorem sysClose_used {p : ℕ} {fd : ℤ} {r : Option Errno} {ft : State} (h : Used s.nprocs s.ft)
    (ha : Accounted s) (hp : p < s.nprocs) (hf : Freeing (.close p fd) s)
    (hs : sysClose p fd s.ft = .ok (r, ft)) : Used s.nprocs ft := by
  simp only [sysClose, localTableCloseFile, nonLockCloseFile] at hs
  split at hs
  · cases hs
    exact h
  · split at hs
    · next hrange =>
      cases hd : s.ft.slot p ⟨fd.toNat, by omega⟩ with
      | none =>
        simp only [closeSlot, hd, Except.ok.injEq, Prod.mk.injEq] at hs
        rw [← hs.2]
        exact h
      | some d =>
        obtain ⟨rfl, -⟩ := closeSlot_spec hd hs
        exact closeSlot_used h ha hp hd
          (fun vn hv honly => hf _ (Int.toNat_of_nonneg hrange.1) d hd vn hv honly) hs
    · cases hs
      exact h

theorem dupInto_used {n p d : ℕ} {i : Handle} {t t' : State} (h : Used n t) (hi : t.slot p i = none)
    (hs : dupInto p i d t = .ok t') : Used n t' := by
  apply h.mono (le_refl n)
  · intro e he
    rwa [(dupInto_frame hs).1.descs] at he
  · intro q _ j e he
    have hne : ¬ (q = p ∧ j = i) := by
      rintro ⟨rfl, rfl⟩
      rw [hi] at he
      cases he
    rw [dupInto_slot hs, setSlot_slot, if_neg hne, he]

theorem localTableDup2_used {p : ℕ} {old new : Handle} {r : Option Errno} {ft : State}
    (h : Used s.nprocs s.ft) (ha : Accounted s) (hp : p < s.nprocs)
    (hlast : old ≠ new → s.ft.slot p old ≠ none → ∀ d, s.ft.slot p new = some d →
      ∀ vn, descNode s.ft d = some vn → onlySlot s.nprocs s.ft p new d → s.ft.refcount vn = 1)
    (hs : localTableDup2 p old new s.ft = .ok (r, ft)) : Used s.nprocs ft := by
  unfold localTableDup2 at hs
  split at hs
  · cases hs
    exact h
  · next hne =>
    cases hd : s.ft.slot p old with
    | none =>
      simp only [hd, Except.ok.injEq, Prod.mk.injEq] at hs
      rw [← hs.2]
      exact h
    | some d =>
      cases hn : s.ft.slot p new with
      | none =>
        simp only [hd, hn] at hs
        cases hdup : dupInto p new d s.ft with
        | error e => simp [hdup, Except.map] at hs
        | ok u =>
          simp only [hdup, Except.map, Except.ok.injEq, Prod.mk.injEq] at hs
          rw [← hs.2]
          exact dupInto_used h hn hdup
      | some e =>
        obtain ⟨u, hcl, -⟩ := closeSlot_accounted ha hp hn
        have hused := closeSlot_used h ha hp hn (hlast hne (by simp [hd]) e hn) hcl
        have hnone : u.slot p new = none := by
          rw [(closeSlot_spec hn hcl).2.2.2, if_pos ⟨rfl, rfl⟩]
        simp only [hd, hn, hcl] at hs
        cases hdup : dupInto p new d u with
        | error e => simp [hdup, Except.map] at hs
        | ok v =>
          simp only [hdup, Except.map, Except.ok.injEq, Prod.mk.injEq] at hs
          rw [← hs.2]
          exact dupInto_used hused hnone hdup

theorem sysDup2_used {p : ℕ} {oldfd newfd : ℤ} {r : Option Errno × ℤ × State}
    (h : Used s.nprocs s.ft) (ha : Accounted s) (hp : p < s.nprocs)
    (hf : Freeing (.dup2 p oldfd newfd) s) (hs : sysDup2 p oldfd newfd s.ft = .ok r) :
    Used s.nprocs r.2.2 := by
  unfold sysDup2 at hs
  split at hs
  · cases hs
    exact h
  · next hrange =>
    cases hdup : localTableDup2 p ⟨oldfd.toNat, by omega⟩ ⟨newfd.toNat, by omega⟩ s.ft with
    | error e => simp [hdup] at hs
    | ok ru =>
      obtain ⟨err, u⟩ := ru
      have hused := localTableDup2_used h ha hp
        (hf _ _ (Int.toNat_of_nonneg (by omega)) (Int.toNat_of_nonneg (by omega))) hdup
      rw [hdup] at hs
      cases err <;> cases hs <;> exact hused

theorem exit_used {p : ℕ} (h : Used s.nprocs s.ft) (ha : Accounted s) (hr : s.ready p = true)
    (hf : Freeing (.exit p) s) (hs : exit p s = .ok s') : Used s'.nprocs s'.ft := by
  have hp := ha.lt_of_ready hr
  obtain ⟨ft, hcl, -⟩ := closeSlots_owned hp (List.finRange _) ha.owned ha.pinned_counted
  have hstart : Leaving s.nprocs p (List.finRange _) s.ft := by
    refine ⟨List.nodup_finRange _, h, ?_⟩
    intro d vn hex hall hv
    obtain ⟨i, -, hd⟩ := hex
    exact hf i d hd vn hv (fun q j hj => (hall q q.isLt j hj).1)
  have hend : Leaving s.nprocs p [] ft := by
    apply closeSlots_rule (P := Leaving s.nprocs p) hp _ _ ha.owned ha.pinned_counted hstart hcl
    · intro i is u _ hi hP
      exact leaving_skip hi hP
    · intro i is d u v ho hd hc hP
      exact leaving_clear ho hp hd hc hP
  simp only [exit, localTableCloseAll, hcl, setNum_refcount] at hs
  cases hc : decrefAll (s.procs p).cwd ft.refcount with
  | error e => simp [hc] at hs
  | ok c =>
    simp only [hc, Except.ok.injEq] at hs
    subst hs
    show Used s.nprocs { ft.setNum p 0 with refcount := c }
    apply hend.used.mono (le_refl _)
    · exact fun d hd => hd
    · intro q _ i d hd
      exact (setNum_slot ft p q 0 i).trans hd

theorem step_used {a : Action} (h : Used s.nprocs s.ft) (ha : Accounted s) (hg : Sound a s)
    (hf : Freeing a s) (hs : step a s = .ok s') : Used s'.nprocs s'.ft := by
  cases a with
  | runprogram cwd => exact runprogram_used h hs
  | openGlobal p mem => exact openGlobal_used h hs
  | openLocal p mem => exact openLocal_used h ha hf hs
  | openUndo p => exact openUndo_used h hs
  | execClose p =>
    simp only [step, execClose] at hs
    split at hs
    · cases hs
    · split at hs
      · cases hs
      · cases hs
        exact h
  | execAbandon p =>
    simp only [step, execAbandon] at hs
    split at hs
    · cases hs
    · cases hs
      exact h
  | openLookup p vn flags =>
    simp only [step] at hs
    split at hs
    · cases hs
      exact h
    · cases hs
  | execOpen p vn =>
    simp only [step] at hs
    split at hs
    · cases hs
      exact h
    · cases hs
  | chdir p vn =>
    simp only [step, chdir] at hs
    split at hs
    · split at hs
      · cases hs
      · split at hs
        · cases hs
        · split at hs
          · cases hs
          · cases hs
            exact h
    · cases hs
  | close p fd =>
    simp only [step] at hs
    split at hs
    · next hr =>
      cases hc : sysClose p fd s.ft with
      | error e => simp [hc, Except.map] at hs
      | ok ru =>
        have hused := sysClose_used h ha (ha.lt_of_ready hr) hf hc
        rw [hc] at hs
        cases hs
        exact hused
    · cases hs
  | dup2 p oldfd newfd =>
    simp only [step] at hs
    split at hs
    · next hr =>
      cases hc : sysDup2 p oldfd newfd s.ft with
      | error e => simp [hc, Except.map] at hs
      | ok ru =>
        have hused := sysDup2_used h ha (ha.lt_of_ready hr) hf hc
        rw [hc] at hs
        cases hs
        exact hused
    · cases hs
  | fork p =>
    simp only [step] at hs
    split at hs
    · next hr => exact fork_used h ha hr hg hs
    · cases hs
  | exit p =>
    simp only [step] at hs
    split at hs
    · next hr => exact exit_used h ha hr hf hs
    · cases hs

/-- A descriptor other than the console ones is allocated exactly as long as
some slot holds it. -/
structure DescsExact (s : System) : Prop where
  used : ∀ d fd, s.ft.descs.get d = some fd → fd.standard = -1 → ∃ p i, s.ft.slot p i = some d
  live : ∀ p i d, s.ft.slot p i = some d → ∃ fd, s.ft.descs.get d = some fd

theorem used_exact (h : Used s.nprocs s.ft) (ha : Accounted s) : DescsExact s := by
  constructor
  · intro d fd hget hstd
    have h3 : 3 ≤ d := by
      by_contra hlt
      obtain ⟨flags, hx⟩ := ha.owned.heap.std_desc d (by omega)
      rw [hget] at hx
      cases hx
      have hneg : (d : ℤ) = -1 := hstd
      omega
    obtain ⟨p, -, i, hi⟩ := h d h3 (Store.get_some.mp hget).1
    exact ⟨p, i, hi⟩
  · intro p i d hd
    obtain ⟨fd, -, hget, -⟩ := (accounted_safe ha).slots p i d hd
    exact ⟨fd, hget⟩

instance decidableFreeing : ∀ a s, Decidable (Freeing a s)
  | .close p fd, s => inferInstanceAs (Decidable (∀ i : Handle, (i : ℤ) = fd →
      ∀ d ∈ s.ft.slot p i, ∀ vn ∈ descNode s.ft d,
      onlySlot s.nprocs s.ft p i d → s.ft.refcount vn = 1))
  | .dup2 p oldfd newfd, s => inferInstanceAs (Decidable (∀ i j : Handle, (i : ℤ) = oldfd →
      (j : ℤ) = newfd → i ≠ j → s.ft.slot p i ≠ none → ∀ d ∈ s.ft.slot p j,
      ∀ vn ∈ descNode s.ft d, onlySlot s.nprocs s.ft p j d → s.ft.refcount vn = 1))
  | .exit p, s => inferInstanceAs (Decidable (∀ i, ∀ d ∈ s.ft.slot p i, ∀ vn ∈ descNode s.ft d,
      (∀ q : Fin s.nprocs, ∀ j, s.ft.slot q j = some d → q = p) →
      s.ft.refcount vn = copies s.ft p (List.finRange _) d))
  | .openLocal p mem, s => inferInstanceAs (Decidable (
      (s.ft.locals p).numOpenFiles ≠ MAX_LOCAL_TABLE_SIZE → mem = true → ∃ i, s.ft.slot p i = none))
  | .runprogram _, _ | .openLookup _ _ _, _ | .openGlobal _ _, _ | .openUndo _, _ | .fork _, _
  | .chdir _ _, _ | .execOpen _ _, _ | .execClose _, _ | .execAbandon _, _ => isTrue trivial

def Tidy (a : Action) (s : System) : Prop := Sound a s ∧ Freeing a s

instance decidableTidy (a : Action) (s : System) : Decidable (Tidy a s) :=
  inferInstanceAs (Decidable (Sound a s ∧ Freeing a s))

/-- In every run whose steps clear last slots only together with last
references, every state reached has each descriptor in a slot and each slot on
an allocated descriptor. -/
theorem tidy_run_descs (devices : Refcounts) (as : List Action) (t : System)
    (hg : Runs.Guarded step Tidy as (boot devices)) (hr : run as (boot devices) = .ok t) :
    DescsExact t := by
  have hstep : ∀ a s s', Accounted s ∧ Used s.nprocs s.ft → Tidy a s → step a s = .ok s' →
      Accounted s' ∧ Used s'.nprocs s'.ft := by
    intro a s s' hi hc hs
    exact ⟨step_accounted hi.1 hc.1 hs, step_used hi.2 hi.1 hc.1 hc.2 hs⟩
  have hboot : Used (boot devices).nprocs (boot devices).ft := by
    intro d h3 hd
    have hlt := (boot devices).ft.descs.live_lt hd
    have hn : (boot devices).ft.descs.next = 3 := rfl
    omega
  obtain ⟨hacc, hused⟩ := Runs.guarded_invariant hstep hg ⟨boot_accounted devices, hboot⟩ hr
  exact used_exact hused hacc

/-- One descriptor in four slots of two processes, all of them cleared. -/
def oneDescriptor : List Action :=
  [.runprogram (some 9), .openLookup 0 7 2, .openGlobal 0 true, .openLocal 0 true, .dup2 0 3 5,
    .fork 0, .close 0 3, .exit 1, .dup2 0 2 5]

theorem oneDescriptor_exact : ∃ t, run oneDescriptor (boot console) = .ok t ∧
    t.ft.descs.get 3 = none ∧ DescsExact t := by
  have hg : Runs.Guarded step Tidy oneDescriptor (boot console) := by decide +kernel
  have hr : ∃ t, run oneDescriptor (boot console) = .ok t ∧ t.ft.descs.get 3 = none := by
    decide +kernel
  obtain ⟨t, hr, hn⟩ := hr
  exact ⟨t, hr, hn, tidy_run_descs console oneDescriptor t hg hr⟩

/-- One file is opened twice; the first of the two descriptors is closed. -/
def openedTwice : List Action :=
  [.runprogram (some 9), .openLookup 0 7 2, .openGlobal 0 true, .openLocal 0 true,
    .openLookup 0 7 2, .openGlobal 0 true, .openLocal 0 true, .close 0 3]

theorem openedTwice_leaks : ∃ t, run openedTwice (boot console) = .ok t ∧ outsideRefs t 7 = 0 ∧
    (∃ fd, t.ft.descs.get 3 = some fd) ∧ (∀ p i, t.ft.slot p i ≠ some 3) ∧ ¬ DescsExact t := by
  have hg : Runs.Guarded step Sound openedTwice (boot console) := by decide +kernel
  have hr : ∃ t, run openedTwice (boot console) = .ok t ∧ outsideRefs t 7 = 0 ∧
      t.ft.descs.get 3 = some ⟨3, 2, 0, -1⟩ ∧
      ∀ p : Fin t.nprocs, ∀ i, t.ft.slot p i ≠ some 3 := by
    decide +kernel
  obtain ⟨t, hr, hout, hget, hslots⟩ := hr
  have hall : ∀ p i, t.ft.slot p i ≠ some 3 := by
    intro p i hd
    exact hslots ⟨p, lt_of_slot (run_accounted hg hr) hd⟩ i hd
  refine ⟨t, hr, hout, ⟨_, hget⟩, hall, ?_⟩
  intro h
  obtain ⟨p, i, hi⟩ := h.used 3 _ hget rfl
  exact hall p i hi

end OS161.DescriptorRuns
