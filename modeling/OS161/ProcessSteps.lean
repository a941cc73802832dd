import OS161.ProcessEffects

/-!
# The ways a step of the process machine can go

Every successful step is one of the cases of `Effect`. Most actions of
`sys_fork` only move one process from one stage to the next; those are
gathered in `Moves`.
-/

set_option autoImplicit false

namespace OS161.ProcessSteps

open Function OS161.Slots OS161.Vfs OS161.ProcessTable OS161.ProcessEffects

inductive Moves (s : System) : ℕ → Stage → Prop
  | runprogram : s.stage kproc = .menu → Moves s kproc (.forking .admitted)
  | fork {p : ℕ} {pcb : Proc} : s.stage p = .running → s.procs.get p = some pcb →
      pcb.numChilds < MAX_CHILDS → Moves s p (.forking .checked)
  | refused {p : ℕ} : s.stage p = .forking .checked → Moves s p .running
  | admitted {p : ℕ} : s.stage p = .forking .checked → Moves s p (.forking .admitted)
  | noMemory {p : ℕ} : s.stage p = .forking .admitted → Moves s p (home p)
  | loaded {p : ℕ} : s.stage p = .loading → Moves s p .running

/-- The parent's array with the child in its first free slot. -/
def adopted (c : ℕ) (pcb : Proc) : Proc :=
  { pcb with
    numChilds := pcb.numChilds+1
    childs := match firstFree pcb.childs with
      | some i => update pcb.childs i (some c)
      | none => pcb.childs }

/-- The pid that the end of `sys_fork` reads. -/
def readPid (c : ℕ) (junk : ℤ) (s : System) : ℤ :=
  match s.procs.get c with
  | some child => child.pid
  | none => junk

inductive Effect (s : System) : Action → System → Prop
  | stay {a : Action} : Effect s a s
  | move {a : Action} {p : ℕ} {st : Stage} : Moves s p st → Effect s a (s.setStage p st)
  | insert {p : ℕ} {junk k : ℤ} {s' : System} : s.stage p = .forking .admitted →
      Inserting p k s s' → Effect s (.insert p true junk) s'
  | countUp {p c : ℕ} : s.stage p = .forking (.created c) →
      Effect s (.countUp p) { s.setStage p (.forking (.counted c)) with count := s.count+1 }
  | abandon {p c : ℕ} : s.stage p = .forking (.counted c) →
      Effect s (.start p false)
        { s with procs := s.procs.free c, stage := update (update s.stage c .absent) p (home p) }
  | load {c : ℕ} : s.stage kproc = .forking (.counted c) →
      Effect s (.start kproc true) { s with stage := update (update s.stage c .loading) kproc .menu }
  | launch {p c : ℕ} : p ≠ kproc → s.stage p = .forking (.counted c) →
      Effect s (.start p true)
        { s with stage := update (update s.stage c .running) p (.forking (.started c)) }
  | record {p c : ℕ} {junk : ℤ} {pcb : Proc} : s.stage p = .forking (.started c) →
      s.procs.get p = some pcb →
      Effect s (.record p junk)
        { s with
          procs := s.procs.set p (adopted c pcb)
          stage := update s.stage p .running
          known := update s.known p (update (s.known p) (readPid c junk s) (some c)) }
  | unload {p : ℕ} : s.stage p = .loading →
      Effect s (.enter p false) { s with procs := s.procs.free p, stage := update s.stage p .absent }
  | exit {p : ℕ} {code : ℤ} {pcb : Proc} {i : Fin MAX_PROCS} {cur : ℕ} {en : Entry} {q : ℕ}
      {par : Proc} {s' : System} : Exiting p code pcb i cur en q par s s' → Effect s (.exit p code) s'
  | destroy {p : ℕ} : s.stage p = .exited →
      Effect s (.destroy p) { s with procs := s.procs.free p, stage := update s.stage p .absent }
  | noProcess {p : ℕ} {k : ℤ} {st : Status} : s.stage p = .running →
      (k ≤ 0 ∨ ∃ i : Fin MAX_PROCS, (i.val : ℤ) = k ∧ s.table i = none) →
      Effect s (.waitpid p k st 0) (returns p k st (.error .esrch) s)
  | noChild {p : ℕ} {k : ℤ} {st : Status} {i : Fin MAX_PROCS} {e : ℕ} {pcb : Proc} :
      Asking p k i e pcb s → hasChild pcb.childs k s (List.finRange _) = .ok false →
      Effect s (.waitpid p k st 0) (returns p k st (.error .echild) s)
  | sleep {p : ℕ} {k : ℤ} {st : Status} {i : Fin MAX_PROCS} {e : ℕ} {pcb : Proc} {en : Entry} :
      Asking p k i e pcb s → hasChild pcb.childs k s (List.finRange _) = .ok true →
      s.entries.get e = some en → en.termed = false →
      Effect s (.waitpid p k st 0) (s.setStage p (.waiting k e st))
  | reap {p : ℕ} {k : ℤ} {st : Status} {i : Fin MAX_PROCS} {e : ℕ} {pcb : Proc} {en : Entry}
      {s' : System} : Asking p k i e pcb s → hasChild pcb.childs k s (List.finRange _) = .ok true →
      Reaping p k e st en s s' → Effect s (.waitpid p k st 0) s'
  | wake {p : ℕ} {k : ℤ} {st : Status} {e : ℕ} {en : Entry} {s' : System} :
      s.stage p = .woken k e st → Reaping p k e st en s s' → Effect s (.wake p) s'

variable {s s' : System}

theorem fork_effect {p : ℕ} (h : fork p s = .ok s') : Effect s (.fork p) s' := by
  unfold fork at h
  split at h
  · next hrun =>
    split at h
    · cases h
    · cases h
      exact .stay
    · next hchecks =>
      cases h
      unfold forkChecks at hchecks
      split at hchecks
      · cases hchecks
      · split at hchecks
        · cases hchecks
        · next pcb hpcb =>
          have hlt : pcb.numChilds < MAX_CHILDS := by
            by_contra hge
            rw [if_pos (by omega)] at hchecks
            cases hchecks
          exact .move (.fork hrun hpcb hlt)
  · cases h

theorem start_effect {p : ℕ} {mem : Bool} (h : start p mem s = .ok s') : Effect s (.start p mem) s' := by
  unfold start at h
  split at h
  · next c hst =>
    cases h
    cases mem with
    | false => exact .abandon hst
    | true =>
      by_cases hp : p = kproc
      · subst hp
        simpa using Effect.load hst
      · simpa [hp] using Effect.launch hp hst
  · cases h

theorem record_effect {p : ℕ} {junk : ℤ} (h : record p junk s = .ok s') : Effect s (.record p junk) s' := by
  unfold record at h
  split at h
  · next c hst =>
    split at h
    · cases h
    · next pcb hpcb =>
      cases h
      exact .record hst hpcb
  · cases h

theorem waitpid_effect {p : ℕ} {k opts : ℤ} {st : Status} (h : waitpid p k st opts s = .ok s') :
    Effect s (.waitpid p k st opts) s' := by
  by_cases ho : opts = 0
  · subst ho
    rcases waitpid_cases h with ⟨hne, -⟩ | ⟨hrun, rfl, hk⟩ | ⟨i, e, pcb, hask, hrest⟩
    · exact absurd rfl hne
    · exact .noProcess hrun hk
    · rcases hrest with ⟨hfound, rfl⟩ | ⟨hfound, en, hen, ⟨-, hreap⟩ | ⟨hterm, rfl⟩⟩
      · exact .noChild hask hfound
      · exact .reap hask hfound hreap
      · exact .sleep hask hfound hen hterm
  · have hrun : s.stage p = .running := by
      unfold waitpid at h
      split at h
      · assumption
      · cases h
    unfold waitpid at h
    rw [hrun] at h
    simp only [ne_eq, ho, not_false_eq_true, if_true] at h
    cases h
    exact .stay

/-- Every step that succeeds has one of the effects. -/
theorem step_effect {a : Action} (h : step a s = .ok s') : Effect s a s' := by
  cases a with
  | runprogram =>
    simp only [step, runprogram] at h
    split at h
    · next hst =>
      cases h
      split
      · exact .stay
      · exact .move (.runprogram hst)
    · cases h
  | fork p => exact fork_effect h
  | recheck p =>
    simp only [step, recheck] at h
    split at h
    · next hst =>
      cases h
      split
      · exact .move (.refused hst)
      · exact .move (.admitted hst)
    · cases h
  | insert p mem junk =>
    simp only [step, ProcessTable.insert] at h
    split at h
    · next hst =>
      cases h
      cases mem with
      | false => exact .move (.noMemory hst)
      | true =>
        obtain ⟨k, hins⟩ := insertProc_effect p junk
        exact .insert hst hins
    · cases h
  | countUp p =>
    simp only [step, countUp] at h
    split at h
    · next c hst =>
      cases h
      exact .countUp hst
    · cases h
  | start p mem => exact start_effect h
  | record p junk => exact record_effect h
  | enter p loaded =>
    simp only [step, enter] at h
    split at h
    · next hst =>
      cases h
      cases loaded with
      | false => exact .unload hst
      | true => exact .move (.loaded hst)
    · cases h
  | exit p code =>
    obtain ⟨pcb, i, cur, en, q, par, hex⟩ := exit_effect h
    exact .exit hex
  | destroy p =>
    simp only [step, destroy] at h
    split at h
    · next hst =>
      cases h
      exact .destroy hst
    · cases h
  | waitpid p k st opts => exact waitpid_effect h
  | wake p =>
    obtain ⟨k, e, st, en, hst, hreap⟩ := wake_effect h
    exact .wake hst hreap

theorem boot_stage {c : ℕ} (hc : c ≠ kproc) : boot.stage c = .absent := by
  simp [boot, fileTableBootstrap, procBootstrap, hc]

/-- At boot there is only the kernel's process. -/
theorem boot_get {p : ℕ} {pcb : Proc} (hp : boot.procs.get p = some pcb) :
    p = kproc ∧ pcb = ⟨0, none, 0, SlotArray.empty⟩ := by
  rcases Store.alloc_get_cases (show (Store.empty.alloc _).get p = some pcb from hp) with hnew | ⟨-, hold⟩
  · exact hnew
  · simp [Store.get, Store.empty] at hold

end OS161.ProcessSteps
