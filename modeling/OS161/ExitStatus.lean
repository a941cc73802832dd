import OS161.WaitChecks

/-!
# The status word of a process that has exited

`kern/wait.h` says how a status word is made and how it is taken apart: two
bits for what happened to the process and the rest for a value. `sys__exit`
stores the code it is called with in the entry of the process and `sys_waitpid`
copies out what is there. Neither makes a status word of it, so that the low
bits of the code are taken for what happened.
-/

set_option autoImplicit false

namespace OS161.ExitStatus

open Function OS161.Slots OS161.Vfs OS161.ProcessTable OS161.ProcessEffects OS161.ProcessSteps
open OS161.WaitChecks

/-- C's `int`. -/
abbrev CInt := BitVec 32

def WWHAT (x : CInt) : CInt := x &&& 3
def WVAL (x : CInt) : CInt := x.sshiftRight 2

def WEXITED : CInt := 0
def WSIGNALED : CInt := 1
def WCORED : CInt := 2
def WSTOPPED : CInt := 3

def WIFEXITED (x : CInt) : Bool := WWHAT x == WEXITED
def WIFSIGNALED (x : CInt) : Bool := WWHAT x == WSIGNALED || WWHAT x == WCORED
def WIFSTOPPED (x : CInt) : Bool := WWHAT x == WSTOPPED
def WEXITSTATUS (x : CInt) : CInt := WVAL x
def WTERMSIG (x : CInt) : CInt := WVAL x
def WSTOPSIG (x : CInt) : CInt := WVAL x
def WCOREDUMP (x : CInt) : Bool := WWHAT x == WCORED

/-- The shell's record of how a job ended. -/
structure ExitInfo where
  val : BitVec 8
  signaled : Bool
  stopped : Bool
  coredump : Bool
  deriving DecidableEq

def readstatus (status : CInt) : ExitInfo :=
  if WIFEXITED status then ⟨(WEXITSTATUS status).setWidth 8, false, false, false⟩
  else if WIFSIGNALED status && WCOREDUMP status then ⟨(WTERMSIG status).setWidth 8, true, false, true⟩
  else if WIFSIGNALED status then ⟨(WTERMSIG status).setWidth 8, true, false, false⟩
  else if WIFSTOPPED status then ⟨(WSTOPSIG status).setWidth 8, false, true, false⟩
  else ⟨status.setWidth 8, false, false, false⟩

/-- The word `w` says that the process exited with the code `c`. -/
structure Tells (w c : CInt) : Prop where
  exited : WIFEXITED w = true
  status : WEXITSTATUS w = c
  shell : readstatus w = ⟨c.setWidth 8, false, false, false⟩

/-- A code sent as it is is understood if it is zero, and not otherwise. -/
theorem tells_self_iff (c : CInt) : Tells c c ↔ c = 0 := by
  constructor
  · intro h
    have hlow : c &&& 3 = 0 := by simpa [WIFEXITED, WWHAT, WEXITED] using h.exited
    have hint := congrArg BitVec.toInt h.status
    rw [WEXITSTATUS, WVAL, BitVec.toInt_sshiftRight, Int.shiftRight_eq_div_pow] at hint
    have hcases : c.toInt = 0 ∨ c.toInt = -1 := by omega
    rcases hcases with hc | hc
    · exact BitVec.eq_of_toInt_eq (by simpa using hc)
    · have hones : c = -1 := BitVec.eq_of_toInt_eq (by rw [hc]; rfl)
      rw [hones] at hlow
      exact absurd hlow (by decide)
  · rintro rfl
    exact ⟨rfl, rfl, rfl⟩

def MKWAIT_EXIT (x : CInt) : CInt := x <<< 2 ||| WEXITED

theorem mkwait_eq (c : CInt) : MKWAIT_EXIT c = c <<< 2 := BitVec.or_zero

/-- The encoding that `kern/wait.h` provides for it carries every code of up to 30 bits. -/
theorem tells_mkwait {c : CInt} (hlo : -2^29 ≤ c.toInt) (hhi : c.toInt < 2^29) : Tells (MKWAIT_EXIT c) c := by
  have hexited : WIFEXITED (MKWAIT_EXIT c) = true := by
    simp only [WIFEXITED, WWHAT, WEXITED, mkwait_eq, beq_iff_eq]
    apply BitVec.eq_of_toNat_eq
    rw [BitVec.toNat_and, BitVec.toNat_shiftLeft, show BitVec.toNat (3 : CInt) = 2^2-1 from rfl,
      Nat.and_two_pow_sub_one_eq_mod, show BitVec.toNat (0 : CInt) = 0 from rfl, Nat.shiftLeft_eq]
    omega
  have hstatus : WEXITSTATUS (MKWAIT_EXIT c) = c := by
    rw [WEXITSTATUS, WVAL, mkwait_eq]
    apply BitVec.eq_of_toInt_eq
    rw [BitVec.toInt_sshiftRight, Int.shiftRight_eq_div_pow, BitVec.toInt_shiftLeft]
    rw [BitVec.toInt_eq_toNat_bmod] at *
    simp only [Nat.shiftLeft_eq, Int.bmod] at *
    omega
  exact ⟨hexited, hstatus, by rw [readstatus, if_pos hexited, hstatus]⟩

/-- The code in an entry whose process is dead. -/
def deadCode (e : ℕ) (s : System) : Option (ℕ × ℤ) :=
  match s.entries.get e with
  | some en => if en.termed then some (e, en.exitcode) else none
  | none => none

/-- What the `copyout` of `sys_waitpid` copies in this step, and from which
entry: at once if the target is dead, otherwise when the caller has been woken. -/
def copiedOut : Action → System → Option (ℕ × ℤ)
  | .waitpid p target .valid opts, s =>
    match s.stage p, waitpidChecks p target opts s with
    | .running, .ok (.ok e) => deadCode e s
    | _, _ => none
  | .wake p, s =>
    match s.stage p with
    | .woken _ e .valid => deadCode e s
    | _ => none
  | _, _ => none

/-- The entry that `sys__exit` stores the code of `p` in. -/
def exitEntry (p : ℕ) (s : System) : Option ℕ :=
  match s.procs.get p with
  | some pcb =>
    match entryAt pcb.pid s with
    | .ok cur => cur
    | .error _ => none
  | none => none

/-- The record of the last `sys__exit` on each entry: the code it was called with. -/
def noteExit : Action → System → (ℕ → Option ℤ) → ℕ → Option ℤ
  | .exit p code, s, codes =>
    match exitEntry p s with
    | some cur => update codes cur (some code)
    | none => codes
  | _, _, codes => codes

def lastCodes (as : List Action) (s : System) : ℕ → Option ℤ :=
  Runs.track step noteExit as s (fun _ => none)

variable {s s' : System}

theorem deadCode_some {e f : ℕ} {w : ℤ} (h : deadCode f s = some (e, w)) :
    f = e ∧ ∃ en, s.entries.get e = some en ∧ en.termed = true ∧ en.exitcode = w := by
  unfold deadCode at h
  split at h
  · next en hen =>
    split at h
    · next ht =>
      cases h
      exact ⟨rfl, en, hen, ht, rfl⟩
    · cases h
  · cases h

/-- What is copied out is the code in an entry, and the call ends by reaping it. -/
theorem copiedOut_some {a : Action} {e : ℕ} {w : ℤ} (h : copiedOut a s = some (e, w)) :
    (∃ en, s.entries.get e = some en ∧ en.termed = true ∧ en.exitcode = w) ∧
      ∃ p target, step a s = reap p target e .valid s := by
  cases a with
  | waitpid p target status opts =>
    cases status with
    | valid =>
      simp only [copiedOut] at h
      split at h
      · next hrun hf =>
        obtain ⟨rfl, en, hen, ht, hw⟩ := deadCode_some h
        refine ⟨⟨en, hen, ht, hw⟩, p, target, ?_⟩
        rw [step, waitpid_checks hrun, hf]
        simp [hen, ht]
      · cases h
    | _ => cases h
  | wake p =>
    simp only [copiedOut] at h
    split at h
    · next target f hst =>
      obtain ⟨rfl, hen⟩ := deadCode_some h
      refine ⟨hen, p, target, ?_⟩
      simp [step, wake, hst]
    · cases h
  | _ => cases h

/-- The record holds the code of every dead process. -/
def Recorded (s : System) (codes : ℕ → Option ℤ) : Prop :=
  ∀ e en, s.entries.get e = some en → en.termed = true → codes e = some en.exitcode

theorem markChildren_live {childs : SlotArray MAX_CHILDS ℕ} {is : List (Fin MAX_CHILDS)}
    (h : markChildren childs is s = .ok s') : s'.entries.live = s.entries.live := by
  induction is generalizing s with
  | nil =>
    cases h
    rfl
  | cons i is ih =>
    simp only [markChildren] at h
    repeat' split at h
    any_goals cases h
    all_goals
      have hrest := ih h
      exact hrest

/-- The loop over the children leaves what `sys_waitpid` reads of an entry. -/
theorem markChildren_back {childs : SlotArray MAX_CHILDS ℕ} {is : List (Fin MAX_CHILDS)}
    (h : markChildren childs is s = .ok s') {e : ℕ} {x : Entry} (hx : s'.entries.get e = some x) :
    ∃ en, s.entries.get e = some en ∧ x.termed = en.termed ∧ x.exitcode = en.exitcode := by
  have hlive := (Store.get_some.mp hx).1
  rw [markChildren_live h] at hlive
  obtain ⟨en, hcell⟩ := s.entries.live_cell e hlive
  have hen := Store.get_some.mpr ⟨hlive, hcell⟩
  obtain ⟨b, hb, -⟩ := (markChildren_spec h).2.2.2 e en hen
  rw [hb, Option.some.injEq] at hx
  subst hx
  exact ⟨en, hen, rfl, rfl⟩

theorem exit_live {p : ℕ} {code : ℤ} (h : exit p code s = .ok s') : s'.entries.live = s.entries.live := by
  unfold ProcessTable.exit at h
  split at h
  · split at h
    · cases h
    · split at h
      · cases h
      · cases h
      · split at h
        · cases h
        · split at h
          · cases h
          · next s1 hmark =>
            simp only at h
            split at h
            · cases h
            · next s4 hunlink =>
              obtain ⟨q, par, -, -, hs4⟩ := unlink_spec hunlink
              cases h
              subst hs4
              have hlive := markChildren_live hmark
              simp only [System.setStage]
              split <;> exact hlive
  · cases h

/-- What `sys__exit` does to the entries: its own gets the code. -/
theorem exit_entries {p : ℕ} {code : ℤ} (h : exit p code s = .ok s') :
    ∃ cur, exitEntry p s = some cur ∧ ∀ e x, s'.entries.get e = some x →
      e = cur ∧ x.exitcode = code ∨
        e ≠ cur ∧ ∃ en, s.entries.get e = some en ∧ x.termed = en.termed ∧ x.exitcode = en.exitcode := by
  obtain ⟨pcb, i, cur, en, q, par, hex⟩ := exit_effect h
  have hat : entryAt pcb.pid s = .ok (some cur) := entryAt_ok.mpr ⟨i, hex.pid.symm, hex.slot⟩
  have hcur : exitEntry p s = some cur := by simp [exitEntry, hex.self, hat]
  refine ⟨cur, hcur, ?_⟩
  intro e x hx
  by_cases hec : e = cur
  · obtain ⟨b, hb, -⟩ := hex.own
    rw [hec, hb, Option.some.injEq] at hx
    exact .inl ⟨hec, by rw [← hx]⟩
  · have hlive := (Store.get_some.mp hx).1
    rw [exit_live h] at hlive
    obtain ⟨fn, hcell⟩ := s.entries.live_cell e hlive
    have hfn := Store.get_some.mpr ⟨hlive, hcell⟩
    obtain ⟨b, hb, -⟩ := hex.others e fn hec hfn
    rw [hb, Option.some.injEq] at hx
    subst hx
    exact .inr ⟨hec, fn, hfn, rfl, rfl⟩

/-- No step but `sys__exit` makes an entry dead or changes the code of one. -/
theorem effect_dead {a : Action} (ha : ∀ p code, a ≠ .exit p code) (h : Effect s a s') {e : ℕ} {en : Entry}
    (hen : s'.entries.get e = some en) (ht : en.termed = true) : s.entries.get e = some en := by
  cases h with
  | insert hp hins =>
    rw [hins.entries] at hen
    rcases Store.alloc_get_cases hen with ⟨-, rfl⟩ | ⟨-, hold⟩
    · cases ht
    · exact hold
  | exit hex => exact absurd rfl (ha _ _)
  | reap hask hfound hreap => rwa [hreap.entries] at hen
  | wake hst hreap => rwa [hreap.entries] at hen
  | _ => exact hen

theorem step_recorded {a : Action} {codes : ℕ → Option ℤ} (h : Recorded s codes) (hs : step a s = .ok s') :
    Recorded s' (noteExit a s codes) := by
  intro e en hen ht
  cases a with
  | exit p code =>
    obtain ⟨cur, hcur, hentries⟩ := exit_entries hs
    simp only [noteExit, hcur]
    rcases hentries e en hen with ⟨rfl, hcode⟩ | ⟨hne, old, hold, htermed, hcode⟩
    · rw [update_self, hcode]
    · rw [update_of_ne hne, hcode]
      exact h e old hold (htermed ▸ ht)
  | _ =>
    have hold := effect_dead (by intros; simp) (step_effect hs) hen ht
    exact h e en hold ht

theorem boot_recorded : Recorded boot (fun _ => none) := by
  intro e en hen ht
  rcases Store.alloc_get_cases hen with ⟨-, rfl⟩ | ⟨-, hold⟩
  · cases ht
  · cases hold

/-- In every run, whatever `sys_waitpid` copies out is the code that the last
`sys__exit` on that entry was called with, and it says so, to the macros and to
the shell, exactly if that code is zero. -/
theorem exitStatus_tells_iff (as : List Action) (t : System) (a : Action) (e : ℕ) (w : ℤ)
    (hr : run as boot = .ok t) (hw : copiedOut a t = some (e, w)) :
    ∃ c, lastCodes as boot e = some c ∧ w = c ∧
      (Tells (BitVec.ofInt 32 w) (BitVec.ofInt 32 c) ↔ BitVec.ofInt 32 c = 0) := by
  have hstep : ∀ a s s' codes, Recorded s codes → step a s = .ok s' → Recorded s' (noteExit a s codes) :=
    fun _ _ _ _ h hs => step_recorded h hs
  have h : Recorded t (lastCodes as boot) := Runs.track_invariant hstep boot_recorded hr
  obtain ⟨⟨en, hen, ht, hcode⟩, -⟩ := copiedOut_some hw
  exact ⟨w, by rw [h e en hen ht, hcode], rfl, tells_self_iff _⟩

/-- A parent waits for its child, which exits with this code. -/
def waitedFor (code : ℤ) : List Action :=
  started ++ forked 1 ++ [.waitpid 1 1 .valid 0, .exit 2 code, .destroy 2]

theorem zero_tells : ∃ t e, run (waitedFor 0) boot = .ok t ∧ copiedOut (.wake 1) t = some (e, 0) ∧
    Tells (BitVec.ofInt 32 0) 0 := by
  have hr : ∃ t, run (waitedFor 0) boot = .ok t ∧ copiedOut (.wake 1) t = some (2, 0) := by decide +kernel
  obtain ⟨t, hr, hw⟩ := hr
  obtain ⟨c, -, hc, htells⟩ := exitStatus_tells_iff (waitedFor 0) t (.wake 1) 2 0 hr hw
  subst hc
  exact ⟨t, 2, hr, hw, htells.mpr rfl⟩

/-- The exit code 1 reads as death by signal 0. -/
theorem one_signaled : ∃ t e, run (waitedFor 1) boot = .ok t ∧ copiedOut (.wake 1) t = some (e, 1) ∧
    lastCodes (waitedFor 1) boot e = some 1 ∧ ¬Tells (BitVec.ofInt 32 1) 1 ∧
    readstatus (BitVec.ofInt 32 1) = ⟨0, true, false, false⟩ := by
  have hr : ∃ t, run (waitedFor 1) boot = .ok t ∧ copiedOut (.wake 1) t = some (2, 1) := by decide +kernel
  have hcode : lastCodes (waitedFor 1) boot 2 = some 1 := by decide +kernel
  obtain ⟨t, hr, hw⟩ := hr
  refine ⟨t, 2, hr, hw, hcode, ?_, by decide⟩
  rintro ⟨hexited, -, -⟩
  exact absurd hexited (by decide)

end OS161.ExitStatus
