import OS161.LocalCounts

/-!
# When a local table knows that it is full

The count of a table is short by the number of descriptors that `sys_open` has
stored in it, a shortfall that a fork copies into the child's table and that
only an exit clears. It is right, and `local_table_add_file` with it, exactly
as long as that number is zero.
-/

set_option autoImplicit false

namespace OS161.LocalFullness

open Function OS161.Slots OS161.Vfs OS161.FileTable OS161.FileOwnership
open OS161.FileClosing OS161.FileOpening OS161.FileRuns OS161.FileActions OS161.LocalCounts

/-- The record of descriptors stored by `sys_open` in each process's table or
in the one it was copied from. -/
def credit : Action → System → (ℕ → ℕ) → ℕ → ℕ
  | .runprogram _, s, g => update g s.nprocs 0
  | .openLocal p mem, s, g => if stores p mem s.ft then update g p (g p+1) else g
  | .fork p, s, g => update g s.nprocs (g p)
  | .exit p, _, g => update g p 0
  | _, _, g => g

def opensStored (as : List Action) (s : System) : ℕ → ℕ := Runs.track step credit as s (fun _ => 0)

/-- Every table is short by what was stored in it, and no process beyond the
last one is alive. -/
def Short (s : System) (g : ℕ → ℕ) : Prop :=
  (∀ p, gap s.ft p = g p) ∧ ∀ p, (s.procs p).alive = true → p < s.nprocs

theorem short_withProc {s : System} {g g' : ℕ → ℕ} {p : ℕ} {ft : State} {pr : Process}
    (h : Short s g) (hgap : ∀ q, gap ft q = g' q) (hpr : pr.alive = true → (s.procs p).alive = true) :
    Short (s.withProc p ft pr) g' := by
  refine ⟨hgap, ?_⟩
  intro q hq
  apply h.2 q
  by_cases hqp : q = p
  · subst hqp
    exact hpr (by simpa [System.withProc] using hq)
  · simpa [System.withProc, update_of_ne hqp] using hq

theorem short_spawned {s : System} {g : ℕ → ℕ} {k : ℕ} {ft : State} {pr : Process}
    (h : Short s g) (hgap : ∀ q, gap ft q = if q = s.nprocs then (k : ℤ) else gap s.ft q) :
    Short (spawned ft pr s) (update g s.nprocs k) := by
  constructor
  · intro q
    show gap ft q = _
    rw [hgap q]
    by_cases hq : q = s.nprocs
    · simp [hq]
    · simp [hq, h.1 q]
  · intro q hq
    show q < s.nprocs+1
    by_cases hqn : q = s.nprocs
    · omega
    · rw [spawned_procs_ne hqn] at hq
      have := h.2 q hq
      omega

theorem hosted_gap (c : Refcounts) (n : ℕ) (ft : State) (q : ℕ) :
    gap (hosted c n ft) q = if q = n then 0 else gap ft q := by
  have hthree : occupied localTableCreate.files = 3 := by decide +kernel
  by_cases hq : q = n
  · subst hq
    simp [gap, hosted, hthree]
    rfl
  · simp [gap, hosted, hq]

theorem fork_short {s s' : System} {g : ℕ → ℕ} {p : ℕ} (h : Short s g)
    (hp : (s.procs p).alive = true) (hs : fork p s = .ok s') : Short s' (update g s.nprocs (g p)) := by
  have hpn : p ≠ s.nprocs := by
    have := h.2 p hp
    omega
  unfold fork at hs
  cases hcwd : (s.procs p).cwd with
  | none => simp [hcwd] at hs
  | some vn =>
    cases hc : vnodeIncref vn s.ft.refcount with
    | error e => simp [hcwd, hc] at hs
    | ok c =>
      cases hcopy : localTableCopy p s.nprocs (hosted c s.nprocs s.ft) with
      | error e =>
        simp only [hosted] at hcopy
        simp [hcwd, hc, hcopy] at hs
      | ok ft =>
        have hgap := localTableCopy_gap hpn hcopy
        simp only [hosted] at hcopy
        simp only [hcwd, hc, hcopy, Except.ok.injEq] at hs
        subst hs
        show Short (spawned ft ⟨true, .idle, some vn, none⟩ s) _
        apply short_spawned h
        intro q
        rw [hgap q, hosted_gap, if_neg hpn, hosted_gap, h.1 p]
        by_cases hq : q = s.nprocs <;> simp [hq]

theorem openGlobal_short {s s' : System} {g : ℕ → ℕ} {p : ℕ} {mem : Bool} (h : Short s g)
    (hs : openGlobal p mem s = .ok s') : Short s' g := by
  unfold openGlobal at hs
  split at hs
  · next vn flags hop =>
    cases hopen : globalTableOpenFile vn mem s.ft with
    | error e => simp [hopen] at hs
    | ok ru =>
      obtain ⟨r, ft⟩ := ru
      have hl : ft.locals = s.ft.locals := globalTableOpenFile_locals hopen
      rw [hopen] at hs
      cases r <;> cases hs <;>
        exact short_withProc h (fun q => (gap_locals hl q).trans (h.1 q)) (fun ha => ha)
  · cases hs

theorem openLocal_short {s s' : System} {g : ℕ → ℕ} {p : ℕ} {mem : Bool} (h : Short s g)
    (hs : openLocal p mem s = .ok s') : Short s' (credit (.openLocal p mem) s g) := by
  unfold openLocal at hs
  split at hs
  · next vn file flags hop =>
    have hgap : ∀ q, gap (localTableAddFile p file flags mem s.ft).2 q =
        credit (.openLocal p mem) s g q := by
      intro q
      rw [localTableAddFile_gap, h.1 p, h.1 q]
      by_cases hst : stores p mem s.ft
      · by_cases hq : q = p
        · simp [credit, hst, hq]
        · simp [credit, hst, hq]
      · simp [credit, hst]
    cases hadd : localTableAddFile p file flags mem s.ft with
    | mk r ft =>
      rw [hadd] at hs hgap
      cases r <;> cases hs <;> exact short_withProc h hgap (fun ha => ha)
  · cases hs

theorem openUndo_short {s s' : System} {g : ℕ → ℕ} {p : ℕ} (h : Short s g)
    (hs : openUndo p s = .ok s') : Short s' g := by
  unfold openUndo at hs
  split at hs
  · next vn file hop =>
    cases hd : fileDestroy file s.ft with
    | error e => simp [hd] at hs
    | ok ru =>
      obtain ⟨b, ft⟩ := ru
      rw [hd] at hs
      cases hs
      have hl := (fileDestroy_frame hd).locals
      exact short_withProc h (fun q => (gap_locals hl q).trans (h.1 q)) (fun ha => ha)
  · cases hs

theorem exit_short {s s' : System} {g : ℕ → ℕ} {p : ℕ} (h : Short s g)
    (hs : exit p s = .ok s') : Short s' (update g p 0) := by
  unfold exit at hs
  cases hcl : localTableCloseAll p s.ft with
  | error e => simp [hcl] at hs
  | ok ft =>
    cases hc : decrefAll (s.procs p).cwd ft.refcount with
    | error e => simp [hcl, hc] at hs
    | ok c =>
      simp only [hcl, hc, Except.ok.injEq] at hs
      subst hs
      apply short_withProc h
      · intro q
        have hgap := localTableCloseAll_gap hcl q
        by_cases hq : q = p
        · rw [if_pos hq] at hgap
          rw [hq, update_self]
          exact hq ▸ hgap
        · rw [if_neg hq, h.1 q] at hgap
          rw [update_of_ne hq]
          exact hgap
      · intro ha
        cases ha

theorem runprogram_short {s s' : System} {g : ℕ → ℕ} {cwd : Option ℕ} (h : Short s g)
    (hs : runprogram cwd s = .ok s') : Short s' (update g s.nprocs 0) := by
  unfold runprogram at hs
  cases hc : increfAll cwd s.ft.refcount with
  | error e => simp [hc] at hs
  | ok c =>
    simp only [hc, Except.ok.injEq] at hs
    subst hs
    show Short (spawned (hosted c s.nprocs s.ft) ⟨true, .idle, cwd, none⟩ s) _
    apply short_spawned h
    intro q
    rw [hosted_gap]
    by_cases hq : q = s.nprocs <;> simp [hq]

/-- An action that only moves counts and a process's own references. -/
theorem short_counts {s : System} {g : ℕ → ℕ} {p : ℕ} {c : Refcounts} {pr : Process}
    (h : Short s g) (hpr : pr.alive = (s.procs p).alive) :
    Short (s.withProc p { s.ft with refcount := c } pr) g :=
  short_withProc h h.1 (fun ha => hpr ▸ ha)

theorem step_short {a : Action} {s s' : System} {g : ℕ → ℕ} (h : Short s g)
    (hs : step a s = .ok s') : Short s' (credit a s g) := by
  cases a with
  | runprogram cwd => exact runprogram_short h hs
  | openGlobal p mem => exact openGlobal_short h hs
  | openLocal p mem => exact openLocal_short h hs
  | openUndo p => exact openUndo_short h hs
  | execClose p =>
    simp only [step, execClose] at hs
    split at hs
    · cases hs
    · split at hs
      · cases hs
      · cases hs
        exact short_counts h rfl
  | execAbandon p =>
    simp only [step, execAbandon] at hs
    split at hs
    · cases hs
    · cases hs
      exact short_counts (c := s.ft.refcount) h
        (show ((s.procs p).setLoading none).alive = (s.procs p).alive from rfl)
  | openLookup p vn flags =>
    simp only [step] at hs
    split at hs
    · cases hs
      exact short_counts h rfl
    · cases hs
  | execOpen p vn =>
    simp only [step] at hs
    split at hs
    · cases hs
      exact short_counts h rfl
    · cases hs
  | chdir p vn =>
    simp only [step, chdir] at hs
    split at hs
    · split at hs
      · cases hs
      · split at hs
        · cases hs
        · split at hs
          · cases hs
          · cases hs
            exact short_counts h rfl
    · cases hs
  | close p fd =>
    simp only [step] at hs
    split at hs
    · cases hc : sysClose p fd s.ft with
      | error e => simp [hc, Except.map] at hs
      | ok ru =>
        rw [hc] at hs
        cases hs
        exact ⟨fun q => (sysClose_gap hc q).trans (h.1 q), h.2⟩
    · cases hs
  | dup2 p oldfd newfd =>
    simp only [step] at hs
    split at hs
    · cases hc : sysDup2 p oldfd newfd s.ft with
      | error e => simp [hc, Except.map] at hs
      | ok ru =>
        rw [hc] at hs
        cases hs
        exact ⟨fun q => (sysDup2_gap hc q).trans (h.1 q), h.2⟩
    · cases hs
  | fork p =>
    simp only [step] at hs
    split at hs
    · next hr =>
      have ha : (s.procs p).alive = true := by
        simp only [System.ready, Bool.and_eq_true] at hr
        exact hr.1.1
      exact fork_short h ha hs
    · cases hs
  | exit p =>
    simp only [step] at hs
    split at hs
    · exact exit_short h hs
    · cases hs

theorem run_gap {devices : Refcounts} {as : List Action} {t : System}
    (hr : run as (boot devices) = .ok t) (p : ℕ) :
    gap t.ft p = opensStored as (boot devices) p := by
  have hboot : Short (boot devices) (fun _ => 0) := by
    refine ⟨?_, ?_⟩
    · intro q
      simp [gap, boot, globalTableCreate, occupied]
    · intro q hq
      cases hq
  have hstep : ∀ a s s' g, Short s g → step a s = .ok s' → Short s' (credit a s g) :=
    fun _ _ _ _ h hs => step_short h hs
  exact (Runs.track_invariant hstep hboot hr).1 p

/-- What `local_table_add_file` owes a caller. -/
structure AddSpec (p : ℕ) (s : State) : Prop where
  emfile : ∀ file flags mem, (localTableAddFile p file flags mem s).1 = .error .emfile ↔
    ∀ i, s.slot p i ≠ none
  eio : ∀ file flags mem, (localTableAddFile p file flags mem s).1 ≠ .error .eio
  lowest : ∀ file flags, (∃ i, s.slot p i = none) → ∃ i u,
    localTableAddFile p file flags true s = (.ok i, u) ∧ s.slot p i = none ∧
    (∀ j < i, s.slot p j ≠ none) ∧ u.slot p i = some s.descs.next ∧
    u.descs.get s.descs.next = some ⟨file, flags &&& O_ACCMODE, 0, -1⟩ ∧
    ∀ q j, ¬ (q = p ∧ j = i) → u.slot q j = s.slot q j

def Counted (p : ℕ) (s : State) : Prop :=
  (s.locals p).numOpenFiles = occupied (s.locals p).files

theorem counted_addSpec {s : State} {p : ℕ} (h : Counted p s) : AddSpec p s := by
  have hfull : (s.locals p).numOpenFiles = MAX_LOCAL_TABLE_SIZE ↔ ∀ i, s.slot p i ≠ none := by
    rw [h]
    exact_mod_cast occupied_full
  have hfree : (s.locals p).numOpenFiles ≠ MAX_LOCAL_TABLE_SIZE →
      ∃ i, firstFree (s.locals p).files = some i := by
    intro hne
    cases hi : firstFree (s.locals p).files with
    | none => exact absurd (hfull.mpr (firstFree_eq_none.mp hi)) hne
    | some i => exact ⟨i, rfl⟩
  constructor
  · intro file flags mem
    rw [← hfull]
    by_cases hn : (s.locals p).numOpenFiles = MAX_LOCAL_TABLE_SIZE
    · simp [addFile_full hn, hn]
    · obtain ⟨i, hi⟩ := hfree hn
      cases mem with
      | false => simpa [addFile_noMem hn] using hn
      | true => simpa [addFile_slot hn hi] using hn
  · intro file flags mem
    by_cases hn : (s.locals p).numOpenFiles = MAX_LOCAL_TABLE_SIZE
    · simp [addFile_full hn]
    · obtain ⟨i, hi⟩ := hfree hn
      cases mem with
      | false => simp [addFile_noMem hn]
      | true => simp [addFile_slot hn hi]
  · intro file flags hsome
    have hn : (s.locals p).numOpenFiles ≠ MAX_LOCAL_TABLE_SIZE := by
      intro he
      obtain ⟨i, hi⟩ := hsome
      exact hfull.mp he i hi
    obtain ⟨i, hi⟩ := hfree hn
    obtain ⟨hnone, hlow⟩ := firstFree_eq_some.mp hi
    refine ⟨i, _, addFile_slot hn hi, hnone, hlow, ?_, ?_, ?_⟩
    · rw [setSlot_slot, if_pos ⟨rfl, rfl⟩]
    · simp [described]
    · intro q j hqj
      rw [setSlot_slot, if_neg hqj]
      rfl

/-- The count of a process's table is right, and with it the behaviour of
`local_table_add_file`, exactly as long as `sys_open` has stored nothing in
that table or in the one it was copied from. -/
theorem run_counted_iff (devices : Refcounts) (as : List Action) (t : System)
    (hr : run as (boot devices) = .ok t) (p : ℕ) :
    (Counted p t.ft ∧ AddSpec p t.ft) ↔ opensStored as (boot devices) p = 0 := by
  have hgap := run_gap hr p
  have hcount : Counted p t.ft ↔ opensStored as (boot devices) p = 0 := by
    simp only [Counted, gap] at *
    omega
  rw [← hcount]
  exact ⟨fun h => h.1, fun h => ⟨h, counted_addSpec h⟩⟩

/-- Slots are duplicated, closed and inherited, and nothing is opened. -/
def noOpens : List Action := [.runprogram (some 9), .dup2 0 1 5, .close 0 0, .fork 0, .dup2 1 2 1]

theorem noOpens_counted :
    ∃ t, run noOpens (boot console) = .ok t ∧ Counted 1 t.ft ∧ AddSpec 1 t.ft := by
  have hr : ∃ t, run noOpens (boot console) = .ok t ∧ True := by decide +kernel
  have hz : opensStored noOpens (boot console) 1 = 0 := by decide +kernel
  obtain ⟨t, hr, -⟩ := hr
  exact ⟨t, hr, (run_counted_iff console noOpens t hr 1).mpr hz⟩

/-- One process opens thirteen files. -/
def thirteenOpens : List Action :=
  .runprogram (some 9) ::
    (List.replicate 13 [.openLookup 0 7 0, .openGlobal 0 true, .openLocal 0 true]).flatten

theorem thirteenOpens_eio : ∃ t, run thirteenOpens (boot console) = .ok t ∧
    (t.ft.locals 0).numOpenFiles = 3 ∧ (∀ i, t.ft.slot 0 i ≠ none) ∧ ¬ Counted 0 t.ft ∧
    (localTableAddFile 0 3 0 true t.ft).1 = .error .eio := by
  have hr : ∃ t, run thirteenOpens (boot console) = .ok t ∧
      (t.ft.locals 0).numOpenFiles = 3 ∧ (∀ i, t.ft.slot 0 i ≠ none) := by
    decide +kernel
  obtain ⟨t, hr, hnum, hfull⟩ := hr
  have hne : (t.ft.locals 0).numOpenFiles ≠ MAX_LOCAL_TABLE_SIZE := by
    rw [hnum]
    decide
  refine ⟨t, hr, hnum, hfull, ?_, ?_⟩
  · intro hc
    have hocc : occupied (t.ft.locals 0).files = MAX_LOCAL_TABLE_SIZE := occupied_full.mpr hfull
    rw [Counted, hocc] at hc
    exact hne hc
  · rw [addFile_noSlot hne (firstFree_eq_none.mpr hfull)]

end OS161.LocalFullness
