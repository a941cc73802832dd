import OS161.ProcessBirths

/-!
# Pids and the counts of processes and children

The bootstrap of the file tables runs after the kernel's process has been
entered and empties the process table, so that the kernel's process is not in
the table it has pid 0 of, and the first program gets pid 0 as well. The count
of processes, and a parent's count of its children, are never lowered.
-/

set_option autoImplicit false

namespace OS161.PidTable

open Function OS161.Slots OS161.Vfs OS161.ProcessTable OS161.ProcessSteps
open OS161.ProcessKin OS161.ProcessEntries OS161.ProcessBirths

/-- `Global_Proc_Table[k]` is not `NULL` and its `pcb` is `p`. -/
def listed (s : System) (k : ℤ) (p : ℕ) : Prop :=
  ∃ (i : Fin MAX_PROCS) (e : ℕ) (en : Entry),
    (i.val : ℤ) = k ∧ s.table i = some e ∧ s.entries.get e = some en ∧ en.pcb = p

/-- `p` has exited and no one has reaped it. -/
def unreaped (s : System) (p : ℕ) : Prop :=
  s.exits p ≠ none ∧ ∃ (i : Fin MAX_PROCS) (e : ℕ) (en : Entry),
    s.table i = some e ∧ s.entries.get e = some en ∧ en.pcb = p

/-- The table of processes as it is meant. -/
structure PidsRight (s : System) : Prop where
  own : ∀ p k, alive (s.stage p) → pidOf s p = some k → listed s k p
  apart : ∀ p q k, alive (s.stage p) ∨ unreaped s p → alive (s.stage q) ∨ unreaped s q →
    pidOf s p = some k → pidOf s q = some k → p = q
  accepted : ∀ p k, p ≠ kproc → alive (s.stage p) → pidOf s p = some k → 0 < k ∧ k < MAX_PROCS

/-- The counts as they are meant, with what `sys_fork` makes of them. -/
structure CountsRight (s : System) : Prop where
  procs : s.count = occupied s.table
  childs : ∀ p pcb, alive (s.stage p) → s.procs.get p = some pcb →
    pcb.numChilds = occupied pcb.childs
  enproc : ∀ p, s.stage p = .running → forkChecks p s = .ok (some .enproc) →
    occupied s.table = MAX_PROCS
  emproc : ∀ p pcb, s.stage p = .running → s.procs.get p = some pcb →
    forkChecks p s = .ok (some .emproc) → occupied pcb.childs = MAX_CHILDS

def inFork : Stage → Bool
  | .forking _ => true
  | _ => false

/-- No fork, and no start of a program from the menu, is in progress. -/
def Quiet (s : System) : Prop := ∀ p : Fin s.procs.next, inFork (s.stage p) = false
  deriving Decidable

/-- What every run keeps, whatever its steps. -/
structure Always (s : System) : Prop where
  cradle : Cradle s
  entered : Entered s
  births : Births s
  unlisted : Unlisted s

variable {s s' : System}

theorem step_always {a : Action} (h : Always s) (hs : step a s = .ok s') : Always s' := by
  have he := step_effect hs
  exact ⟨effect_cradle h.cradle he, effect_entered h.entered he, effect_births h.births h.cradle he,
    effect_unlisted h.unlisted h.cradle h.entered he⟩

theorem boot_always : Always boot := by
  have hunborn : ∀ p, unborn (boot.stage p) = none := by
    intro p
    by_cases hp : p = kproc
    · rw [hp]
      rfl
    · rw [boot_stage hp]
      rfl
  refine ⟨⟨trivial, ?_, ?_⟩, boot_entered, ⟨rfl, ?_⟩, ⟨rfl, rfl, ?_⟩⟩
  · intro c hc
    exact boot_stage (by rintro rfl; simp [boot, fileTableBootstrap, procBootstrap, kproc] at hc)
  · intro p c hp
    rw [hunborn p] at hp
    cases hp
  · show occupied SlotArray.empty < 1
    simp [occupied]
  · intro i e en hi
    cases hi

theorem run_always {as : List Action} {t : System} (hr : run as boot = .ok t) : Always t :=
  Runs.run_invariant (fun _ _ _ h hs => step_always h hs) boot_always hr

/-- In no state that can be reached is the table of processes as it is meant:
the kernel's process lives and is not in it. -/
theorem run_pids_wrong (as : List Action) (t : System) (hr : run as boot = .ok t) : ¬PidsRight t := by
  intro hright
  have h := run_always hr
  have hk : alive (t.stage kproc) := by
    constructor <;> (intro he; have := h.cradle.kernel; rw [he] at this; exact this)
  obtain ⟨i, e, en, -, hi, hen, hpcb⟩ := hright.own kproc 0 hk h.unlisted.pid
  exact h.unlisted.listed i e en hi hen hpcb

/-- The first program. -/
theorem started_pids : ∃ t, run started boot = .ok t ∧ t.stage 1 = .running ∧ ¬PidsRight t := by
  have hr : ∃ t, run started boot = .ok t ∧ t.stage 1 = .running := by decide +kernel
  obtain ⟨t, hr, hrun⟩ := hr
  exact ⟨t, hr, hrun, run_pids_wrong started t hr⟩

theorem started_pidZero : ∃ t, run started boot = .ok t ∧ t.stage 1 = .running ∧
    pidOf t 1 = some 0 ∧ pidOf t kproc = some 0 ∧ ¬PidsRight t := by
  have hr : ∃ t, run started boot = .ok t ∧ t.stage 1 = .running ∧ pidOf t 1 = some 0 ∧
      pidOf t kproc = some 0 := by
    decide +kernel
  obtain ⟨t, hr, hrun, hpid, hker⟩ := hr
  refine ⟨t, hr, hrun, hpid, hker, ?_⟩
  intro h
  have hpos := h.accepted 1 0 (by decide) (by simp [hrun, alive]) hpid
  omega

/-- Between system calls the count is the number of processes ever created. -/
theorem always_count (h : Always s) (hq : Quiet s) : s.count = s.procs.next := by
  have hzero : total (fun p => uncounted (s.stage p)) s.procs.next = 0 := by
    by_contra hne
    obtain ⟨p, hlt, hp⟩ := total_pos.mp (Nat.pos_of_ne_zero hne)
    have hno := hq ⟨p, hlt⟩
    cases hst : s.stage p with
    | forking f => simp [hst, inFork] at hno
    | _ => simp [hst, uncounted] at hp
  have := h.births.count
  omega

/-- In no state between system calls are the counts as they are meant: the
count of processes exceeds the entries of the table. -/
theorem run_counts_wrong (as : List Action) (t : System) (hr : run as boot = .ok t) (hq : Quiet t) :
    ¬CountsRight t := by
  intro hright
  have h := run_always hr
  have hcount := always_count h hq
  have hlt := h.births.table
  have := hright.procs
  omega

/-- A child is waited for, exits and is reaped. -/
def reapedChild : List Action :=
  started ++ forked 1 ++ [.waitpid 1 1 .valid 0, .exit 2 5, .destroy 2, .wake 1]

theorem reapedChild_counts : ∃ t, run reapedChild boot = .ok t ∧ Quiet t ∧ ¬CountsRight t := by
  have hr : ∃ t, run reapedChild boot = .ok t ∧ Quiet t := by decide +kernel
  obtain ⟨t, hr, hq⟩ := hr
  exact ⟨t, hr, hq, run_counts_wrong reapedChild t hr hq⟩

/-- A parent waits for one child after the other. -/
def reapedChilds : ℕ → List Action
  | 0 => started
  | n+1 => reapedChilds n ++ forked 1 ++ [.waitpid 1 1 .valid 0, .exit (n+2) 5, .destroy (n+2), .wake 1]

theorem reapedChilds_emproc : ∃ t, run (reapedChilds MAX_CHILDS) boot = .ok t ∧ Quiet t ∧
    t.stage 1 = .running ∧ forkChecks 1 t = .ok (some .emproc) ∧ ¬CountsRight t := by
  have hr : ∃ t, run (reapedChilds MAX_CHILDS) boot = .ok t ∧ Quiet t ∧ t.stage 1 = .running ∧
      forkChecks 1 t = .ok (some .emproc) ∧
      (t.procs.get 1).any (fun pcb => occupied pcb.childs = 0) = true := by
    decide +kernel
  obtain ⟨t, hr, hq, hrun, hfork, hnone⟩ := hr
  refine ⟨t, hr, hq, hrun, hfork, ?_⟩
  intro h
  obtain ⟨pcb, hpcb, hzero⟩ := (Option.any_eq_true _ _).mp hnone
  have hfull := h.emproc 1 pcb hrun hpcb hfork
  rw [of_decide_eq_true hzero] at hfull
  cases hfull

end OS161.PidTable
