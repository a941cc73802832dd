import OS161.FileRuns

/-!
# Semaphores behind file descriptors

Processes share one semaphore of the semaphore file system through descriptors
they have opened, inherited or duplicated. `sys_read` and `sys_write` keep the
locks of the descriptor and of its `File` until the vnode's operation returns,
and the operation that `sys_read` calls sleeps while the count is too small.
Locks and `cv_wait` are taken as they behave: one step each. Positions in the
file mean nothing to a semaphore and are left out, and so is the table lock
that `semfs_getsem` takes and releases.
-/

set_option autoImplicit false

namespace OS161.SemFs

open Function OS161.Vfs OS161.FileTable

/-- Where a process is. `d` is its descriptor with the contents `desc`, which
never change, `f` the `File`, `resid` what is still to be transferred. In the
last three places it holds the locks it has yet to release. -/
inductive Place where
  | idle
  | readDesc (d : ℕ) (desc : FileDesc) (size : UInt32)
  | readFile (d f : ℕ) (size : UInt32)
  | readSem (d f : ℕ) (resid : UInt32)
  | readLoop (d f : ℕ) (resid : UInt32)
  | readAsleep (d f : ℕ) (resid : UInt32)
  | readWoken (d f : ℕ) (resid : UInt32)
  | writeDesc (d : ℕ) (desc : FileDesc) (size : UInt32)
  | writeFile (d f : ℕ) (size : UInt32)
  | writeSem (d f : ℕ) (resid : UInt32)
  | writeBody (d f : ℕ) (resid : UInt32)
  | unlockSem (d f : ℕ)
  | unlockFile (d f : ℕ)
  | unlockDesc (d : ℕ)
  deriving DecidableEq

/-- `count`, `semLock` and `waiters` are `sems_count`, `sems_lock` and the
channel of `sems_cv`. -/
structure State where
  sys : FileRuns.System
  place : ℕ → Place
  descLock : ℕ → Option ℕ
  fileLock : ℕ → Option ℕ
  semLock : Option ℕ
  waiters : List ℕ
  count : UInt32

def State.goto (s : State) (p : ℕ) (x : Place) : State := { s with place := update s.place p x }

/-- `lock_acquire`. -/
def acquire (p : ℕ) (lock : Option ℕ) (next : State) : Except Stop State :=
  if lock = some p then .error .panic
  else if lock = none then .ok next
  else .error .blocked

def lockDesc (p d : ℕ) (x : Place) (s : State) : Except Stop State :=
  if s.sys.ft.descs.live d = false then .error .useAfterFree
  else acquire p (s.descLock d) ({ s with descLock := update s.descLock d (some p) }.goto p x)

def lockFile (p f : ℕ) (x : Place) (s : State) : Except Stop State :=
  if s.sys.ft.files.live f = false then .error .useAfterFree
  else acquire p (s.fileLock f) ({ s with fileLock := update s.fileLock f (some p) }.goto p x)

def lockSem (p : ℕ) (x : Place) (s : State) : Except Stop State :=
  acquire p s.semLock ({ s with semLock := some p }.goto p x)

/-- What one round of the loop in `semfs_read` takes. -/
def consume (count resid : UInt32) : UInt32 :=
  if 0 < count then (if count < resid then count else resid) else 0

/-- One round of the loop in `semfs_read`. -/
def semfsRead (p d f : ℕ) (resid : UInt32) (s : State) : State :=
  if resid = 0 then s.goto p (.unlockSem d f)
  else
    let left := resid - consume s.count resid
    let s' := { s with count := s.count - consume s.count resid }
    if left = 0 then s'.goto p (.unlockSem d f)
    else if s'.count = 0 then
      { s' with semLock := none, waiters := s'.waiters ++ [p] }.goto p (.readAsleep d f left)
    else s'.goto p (.readLoop d f left)

def wake : Place → Place
  | .readAsleep d f resid => .readWoken d f resid
  | x => x

def cvSignal (s : State) : State :=
  match s.waiters with
  | [] => s
  | u::us => { s with waiters := us, place := update s.place u (wake (s.place u)) }

def cvBroadcast (s : State) : State :=
  { s with waiters := [], place := fun u => if u ∈ s.waiters then wake (s.place u) else s.place u }

def semfsWakeup (newcount : UInt32) (s : State) : State :=
  if 0 < s.count ∨ newcount = 0 then s
  else if newcount = 1 then cvSignal s
  else cvBroadcast s

/-- The loop in `semfs_write` goes round once at most. The sum wraps. -/
def semfsWrite (p d f : ℕ) (resid : UInt32) (s : State) : State :=
  if resid = 0 then s.goto p (.unlockSem d f)
  else if s.count+resid < s.count then s.goto p (.unlockSem d f)
  else { semfsWakeup (s.count+resid) s with count := s.count+resid }.goto p (.unlockSem d f)

/-- The next step of a process in `sys_read` or `sys_write`. -/
def advance (p : ℕ) (s : State) : Except Stop State :=
  match s.place p with
  | .idle | .readAsleep _ _ _ => .error .blocked
  | .readDesc d desc size =>
    lockDesc p d (if desc.flags = O_WRONLY then .unlockDesc d else .readFile d desc.file size) s
  | .readFile d f size => lockFile p f (.readSem d f size) s
  | .readSem d f resid | .readWoken d f resid => lockSem p (.readLoop d f resid) s
  | .readLoop d f resid => .ok (semfsRead p d f resid s)
  | .writeDesc d desc size =>
    lockDesc p d (if desc.flags = O_RDONLY then .unlockDesc d else .writeFile d desc.file size) s
  | .writeFile d f size => lockFile p f (.writeSem d f size) s
  | .writeSem d f resid => lockSem p (.writeBody d f resid) s
  | .writeBody d f resid => .ok (semfsWrite p d f resid s)
  | .unlockSem d f => .ok ({ s with semLock := none }.goto p (.unlockFile d f))
  | .unlockFile d f => .ok ({ s with fileLock := update s.fileLock f none }.goto p (.unlockDesc d))
  | .unlockDesc d => .ok ({ s with descLock := update s.descLock d none }.goto p .idle)

/-- The descriptor `local_table_get` finds, if it leads to the semaphore. -/
def semDesc (sem p : ℕ) (fd : ℤ) (s : State) : Option (ℕ × FileDesc) :=
  match localTableGet p fd s.sys.ft with
  | none => none
  | some d => match s.sys.ft.descs.get d with
    | none => none
    | some desc => match s.sys.ft.files.get desc.file with
      | none => none
      | some file => if desc.standard = -1 ∧ file.node = some sem then some (d, desc) else none

inductive Action where
  | table (a : FileRuns.Action)
  | sysRead (p : ℕ) (fd : ℤ) (size : UInt32)
  | sysWrite (p : ℕ) (fd : ℤ) (size : UInt32)
  | advance (p : ℕ)

def caller : FileRuns.Action → Option ℕ
  | .runprogram _ => none
  | .openLookup p _ _ | .openGlobal p _ | .openLocal p _ | .openUndo p | .close p _ | .dup2 p _ _
  | .fork p | .exit p | .chdir p _ | .execOpen p _ | .execClose p | .execAbandon p => some p

/-- `vfs_open` truncates the semaphore, which sets its count to zero. -/
def truncates (sem : ℕ) : FileRuns.Action → Bool
  | .openLookup _ vn flags => decide (vn = sem ∧ flags &&& O_TRUNC ≠ 0)
  | _ => false

/-- `lock_destroy` asserts that the lock is available. -/
def destroysHeld (s : State) (ft : FileTable.State) : Bool :=
  (List.range s.sys.ft.files.next).any (fun f =>
    s.sys.ft.files.live f && !ft.files.live f && (s.fileLock f).isSome) ||
  (List.range s.sys.ft.descs.next).any (fun d =>
    s.sys.ft.descs.live d && !ft.descs.live d && (s.descLock d).isSome)

def table (sem : ℕ) (a : FileRuns.Action) (s : State) : Except Stop State :=
  match FileRuns.step a s.sys with
  | .error e => .error e
  | .ok sys =>
    if destroysHeld s sys.ft then .error .panic
    else if truncates sem a then
      if s.semLock = none then .ok { s with sys := sys, count := 0 } else .error .blocked
    else .ok { s with sys := sys }

/-- A call on anything but the semaphore is not a step of this machine. -/
def step (sem : ℕ) (a : Action) (s : State) : Except Stop State :=
  match a with
  | .table a =>
    if (caller a).all (fun p => s.place p = .idle) then table sem a s else .error .blocked
  | .sysRead p fd size =>
    if s.place p = .idle ∧ s.sys.ready p then
      match semDesc sem p fd s with
      | none => .error .blocked
      | some (d, desc) => .ok (s.goto p (.readDesc d desc size))
    else .error .blocked
  | .sysWrite p fd size =>
    if s.place p = .idle ∧ s.sys.ready p then
      match semDesc sem p fd s with
      | none => .error .blocked
      | some (d, desc) => .ok (s.goto p (.writeDesc d desc size))
    else .error .blocked
  | .advance p => advance p s

abbrev run (sem : ℕ) : List Action → State → Except Stop State := Runs.run (step sem)

def boot (devices : Refcounts) (count : UInt32) : State where
  sys := FileRuns.boot devices
  place _ := .idle
  descLock _ := none
  fileLock _ := none
  semLock := none
  waiters := []
  count := count

/-- The lock a `sys_write` is at. -/
def wants (s : State) (p : ℕ) : Option ℕ :=
  match s.place p with
  | .writeDesc d _ _ => s.descLock d
  | .writeFile _ f _ => s.fileLock f
  | _ => none

/-- No `sys_write` is stopped by a lock whose holder sleeps in `semfs_read`. -/
def Unjammed (s : State) : Prop :=
  ∀ p u, wants s p = some u → ∀ d f resid, s.place u ≠ .readAsleep d f resid

/-- A `sys_write` that has yet to get the lock of descriptor `d` or of file `f`. -/
def needs (d f : ℕ) : Place → Prop
  | .writeDesc e desc _ => e = d ∨ desc.flags ≠ O_RDONLY ∧ desc.file = f
  | .writeFile _ g _ => g = f
  | _ => False

/-- A `sys_write` begins only while no `sys_read` that has its locks is asleep,
and a `sys_read` goes to sleep only while no `sys_write` needs its locks. -/
def Apart (sem : ℕ) : Action → State → Prop
  | .sysWrite p fd size, s => ∀ e desc, semDesc sem p fd s = some (e, desc) →
      ∀ u d f resid, s.place u = .readAsleep d f resid → ¬needs d f (.writeDesc e desc size)
  | .advance p, s => ∀ d f resid, s.place p = .readLoop d f resid → s.count < resid →
      ∀ u, ¬needs d f (s.place u)
  | _, _ => True

/-- The descriptor and the file whose locks a process holds. -/
def descOf : Place → Option ℕ
  | .idle | .readDesc _ _ _ | .writeDesc _ _ _ => none
  | .readFile d _ _ | .readSem d _ _ | .readLoop d _ _ | .readAsleep d _ _ | .readWoken d _ _
  | .writeFile d _ _ | .writeSem d _ _ | .writeBody d _ _ | .unlockSem d _ | .unlockFile d _
  | .unlockDesc d => some d

def fileOf : Place → Option ℕ
  | .readSem _ f _ | .readLoop _ f _ | .readAsleep _ f _ | .readWoken _ f _
  | .writeSem _ f _ | .writeBody _ f _ | .unlockSem _ f | .unlockFile _ f => some f
  | _ => none

/-- Holders are where the locks say, and no sleeper has what a `sys_write` needs. -/
structure Separate (s : State) : Prop where
  desc : ∀ d p, s.descLock d = some p → descOf (s.place p) = some d
  file : ∀ f p, s.fileLock f = some p → fileOf (s.place p) = some f
  apart : ∀ u d f resid, s.place u = .readAsleep d f resid → ∀ p, ¬needs d f (s.place p)

theorem Separate.unjammed {s : State} (h : Separate s) : Unjammed s := by
  intro p u hw d f resid hu
  have hneeds := h.apart u d f resid hu p
  cases hp : s.place p with
  | writeDesc e desc size =>
    rw [wants, hp] at hw
    have hd := h.desc e u hw
    rw [hu] at hd
    rw [hp] at hneeds
    exact hneeds (.inl (Option.some.inj hd).symm)
  | writeFile e g size =>
    rw [wants, hp] at hw
    have hf := h.file g u hw
    rw [hu] at hf
    rw [hp] at hneeds
    exact hneeds (Option.some.inj hf).symm
  | _ => simp [wants, hp] at hw

@[simp]
theorem descOf_wake (x : Place) : descOf (wake x) = descOf x := by
  cases x <;> rfl

@[simp]
theorem fileOf_wake (x : Place) : fileOf (wake x) = fileOf x := by
  cases x <;> rfl

theorem needs_wake {d f : ℕ} {x : Place} : needs d f (wake x) ↔ needs d f x := by
  cases x <;> rfl

theorem wake_awake (x : Place) (d f : ℕ) (resid : UInt32) : wake x ≠ .readAsleep d f resid := by
  cases x <;> simp [wake]

/-! One family of locks, and the one a process holds before and after a step. -/

section Locks

variable {lock : ℕ → Option ℕ} {p : ℕ} {a b : Option ℕ}

theorem lock_keep (h : ∀ d, lock d = some p → a = some d) (hb : b = a) (d q : ℕ) (hq : lock d = some q) :
    q = p ∧ b = some d ∨ q ≠ p ∧ lock d = some q := by
  by_cases hqp : q = p
  · subst hqp
    exact .inl ⟨rfl, hb.trans (h d hq)⟩
  · exact .inr ⟨hqp, hq⟩

theorem lock_take (h : ∀ d, lock d = some p → a = some d) (ha : a = none) {e : ℕ} (hb : b = some e)
    (d q : ℕ) (hq : update lock e (some p) d = some q) :
    q = p ∧ b = some d ∨ q ≠ p ∧ lock d = some q := by
  by_cases hd : d = e
  · subst hd
    rw [update_self] at hq
    exact .inl ⟨(Option.some.inj hq).symm, hb⟩
  · rw [update_of_ne hd] at hq
    refine .inr ⟨?_, hq⟩
    rintro rfl
    have := h d hq
    rw [ha] at this
    cases this

theorem lock_drop (h : ∀ d, lock d = some p → a = some d) {e : ℕ} (ha : a = some e)
    (d q : ℕ) (hq : update lock e none d = some q) :
    q = p ∧ b = some d ∨ q ≠ p ∧ lock d = some q := by
  by_cases hd : d = e
  · subst hd
    rw [update_self] at hq
    cases hq
  · rw [update_of_ne hd] at hq
    refine .inr ⟨?_, hq⟩
    rintro rfl
    have := h d hq
    rw [ha] at this
    exact hd (Option.some.inj this).symm

end Locks

/-- One process goes on; others may be woken. -/
theorem Separate.goto {s s' : State} {p : ℕ} (h : Separate s)
    (hother : ∀ q, q ≠ p → s'.place q = s.place q ∨ s'.place q = wake (s.place q))
    (hd : ∀ d q, s'.descLock d = some q →
      q = p ∧ descOf (s'.place p) = some d ∨ q ≠ p ∧ s.descLock d = some q)
    (hf : ∀ f q, s'.fileLock f = some q →
      q = p ∧ fileOf (s'.place p) = some f ∨ q ≠ p ∧ s.fileLock f = some q)
    (hsleep : ∀ d f resid, s'.place p = .readAsleep d f resid → ∀ q, q ≠ p → ¬needs d f (s.place q))
    (hneed : ∀ d f, needs d f (s'.place p) →
      needs d f (s.place p) ∨ ∀ u resid, s.place u ≠ .readAsleep d f resid) : Separate s' := by
  refine ⟨?_, ?_, ?_⟩
  · intro d q hq
    rcases hd d q hq with ⟨rfl, hx⟩ | ⟨hne, hold⟩
    · exact hx
    · rcases hother q hne with he | he <;> simp [he, h.desc d q hold]
  · intro f q hq
    rcases hf f q hq with ⟨rfl, hx⟩ | ⟨hne, hold⟩
    · exact hx
    · rcases hother q hne with he | he <;> simp [he, h.file f q hold]
  · intro u d f resid hu q hq
    by_cases hup : u = p
    · subst hup
      by_cases hqu : q = u
      · subst hqu
        simp [hu, needs] at hq
      · have hold : needs d f (s.place q) := by
          rcases hother q hqu with he | he <;> rw [he] at hq
          · exact hq
          · exact needs_wake.mp hq
        exact hsleep d f resid hu q hqu hold
    · have hsl : s.place u = .readAsleep d f resid := by
        rcases hother u hup with he | he <;> rw [he] at hu
        · exact hu
        · exact absurd hu (wake_awake _ _ _ _)
      by_cases hqp : q = p
      · subst hqp
        rcases hneed d f hq with hn | hn
        · exact h.apart u d f resid hsl q hn
        · exact hn u resid hsl
      · refine h.apart u d f resid hsl q ?_
        rcases hother q hqp with he | he <;> rw [he] at hq
        · exact hq
        · exact needs_wake.mp hq

variable {s s' : State} {p : ℕ}

/-- One process goes on and the rest stays where it is. -/
theorem Separate.move {x : Place} (h : Separate s) (hs : s'.place = update s.place p x)
    (hd : ∀ d q, s'.descLock d = some q → q = p ∧ descOf x = some d ∨ q ≠ p ∧ s.descLock d = some q)
    (hf : ∀ f q, s'.fileLock f = some q → q = p ∧ fileOf x = some f ∨ q ≠ p ∧ s.fileLock f = some q)
    (hsleep : ∀ d f resid, x = .readAsleep d f resid → ∀ q, q ≠ p → ¬needs d f (s.place q))
    (hneed : ∀ d f, needs d f x → needs d f (s.place p) ∨ ∀ u resid, s.place u ≠ .readAsleep d f resid) :
    Separate s' := by
  have hx : s'.place p = x := by rw [hs, update_self]
  refine h.goto (p := p) ?_ ?_ ?_ ?_ ?_
  · intro q hq
    exact .inl (by rw [hs, update_of_ne hq])
  · rwa [hx]
  · rwa [hx]
  · rwa [hx]
  · rwa [hx]

theorem acquire_ok {lock : Option ℕ} {next : State} (h : acquire p lock next = .ok s') :
    lock = none ∧ s' = next := by
  simp only [acquire] at h
  split at h
  · cases h
  · split at h
    · next hn =>
      cases h
      exact ⟨hn, rfl⟩
    · cases h

theorem lockDesc_separate {d : ℕ} {x : Place} (h : Separate s) (hp : descOf (s.place p) = none)
    (hx : descOf x = some d) (hfile : fileOf x = fileOf (s.place p))
    (hneed : ∀ e f, needs e f x → needs e f (s.place p)) (hsleep : ∀ e f r, x ≠ .readAsleep e f r)
    (hs : lockDesc p d x s = .ok s') : Separate s' := by
  simp only [lockDesc] at hs
  split at hs
  · cases hs
  · obtain ⟨-, rfl⟩ := acquire_ok hs
    exact h.move rfl (lock_take (fun e => h.desc e p) hp hx) (lock_keep (fun f => h.file f p) hfile)
      (fun e f r he => absurd he (hsleep e f r)) (fun e f hn => .inl (hneed e f hn))

theorem lockFile_separate {f : ℕ} {x : Place} (h : Separate s) (hp : fileOf (s.place p) = none)
    (hx : fileOf x = some f) (hdesc : descOf x = descOf (s.place p))
    (hneed : ∀ e g, ¬needs e g x) (hsleep : ∀ e g r, x ≠ .readAsleep e g r)
    (hs : lockFile p f x s = .ok s') : Separate s' := by
  simp only [lockFile] at hs
  split at hs
  · cases hs
  · obtain ⟨-, rfl⟩ := acquire_ok hs
    exact h.move rfl (lock_keep (fun e => h.desc e p) hdesc) (lock_take (fun g => h.file g p) hp hx)
      (fun e g r he => absurd he (hsleep e g r)) (fun e g hn => absurd hn (hneed e g))

/-- A step that changes neither the locks of descriptors nor those of files. -/
theorem Separate.pass {x : Place} (h : Separate s) (hs : s'.place = update s.place p x)
    (hdl : s'.descLock = s.descLock) (hfl : s'.fileLock = s.fileLock)
    (hdesc : descOf x = descOf (s.place p)) (hfile : fileOf x = fileOf (s.place p))
    (hneed : ∀ e g, ¬needs e g x)
    (hsleep : ∀ d f resid, x = .readAsleep d f resid → ∀ q, q ≠ p → ¬needs d f (s.place q)) :
    Separate s' := by
  refine h.move hs ?_ ?_ hsleep (fun e g hn => absurd hn (hneed e g))
  · rw [hdl]
    exact lock_keep (fun e => h.desc e p) hdesc
  · rw [hfl]
    exact lock_keep (fun g => h.file g p) hfile

theorem consume_lt {count resid : UInt32} (h : resid - consume count resid ≠ 0) : count < resid := by
  by_cases hlt : count < resid
  · exact hlt
  · exfalso
    by_cases hpos : 0 < count
    · simp [consume, hpos, hlt] at h
    · have hzero : count = 0 := UInt32.toNat_inj.mp (by simpa [UInt32.lt_iff_toNat_lt] using hpos)
      subst hzero
      have hr : resid = 0 := UInt32.toNat_inj.mp (by simpa [UInt32.lt_iff_toNat_lt] using hlt)
      simp [consume, hr] at h

theorem semfsRead_separate {d f : ℕ} {resid : UInt32} (h : Separate s) (hp : s.place p = .readLoop d f resid)
    (hg : s.count < resid → ∀ u, ¬needs d f (s.place u)) : Separate (semfsRead p d f resid s) := by
  simp only [semfsRead]
  split
  · exact h.pass rfl rfl rfl (by simp [hp, descOf]) (by simp [hp, fileOf]) (by simp [needs]) (by simp)
  · split
    · exact h.pass rfl rfl rfl (by simp [hp, descOf]) (by simp [hp, fileOf]) (by simp [needs]) (by simp)
    · next hleft =>
      split
      · refine h.pass rfl rfl rfl (by simp [hp, descOf]) (by simp [hp, fileOf]) (by simp [needs]) ?_
        intro d' f' resid' he q _
        cases he
        exact hg (consume_lt hleft) q
      · exact h.pass rfl rfl rfl (by simp [hp, descOf]) (by simp [hp, fileOf]) (by simp [needs]) (by simp)

theorem semfsWakeup_frame (newcount : UInt32) (s : State) :
    (semfsWakeup newcount s).descLock = s.descLock ∧ (semfsWakeup newcount s).fileLock = s.fileLock ∧
      ∀ q, (semfsWakeup newcount s).place q = s.place q ∨
        (semfsWakeup newcount s).place q = wake (s.place q) := by
  simp only [semfsWakeup]
  split
  · exact ⟨rfl, rfl, fun _ => .inl rfl⟩
  · split
    · simp only [cvSignal]
      split
      · exact ⟨rfl, rfl, fun _ => .inl rfl⟩
      · next u us _ =>
        refine ⟨rfl, rfl, ?_⟩
        intro q
        by_cases hq : q = u
        · subst hq
          exact .inr (update_self ..)
        · exact .inl (update_of_ne hq ..)
    · refine ⟨rfl, rfl, ?_⟩
      intro q
      by_cases hq : q ∈ s.waiters
      · exact .inr (by simp [cvBroadcast, hq])
      · exact .inl (by simp [cvBroadcast, hq])

theorem semfsWrite_separate {d f : ℕ} {resid : UInt32} (h : Separate s)
    (hp : s.place p = .writeBody d f resid) : Separate (semfsWrite p d f resid s) := by
  simp only [semfsWrite]
  split
  · exact h.pass rfl rfl rfl (by simp [hp, descOf]) (by simp [hp, fileOf]) (by simp [needs]) (by simp)
  · split
    · exact h.pass rfl rfl rfl (by simp [hp, descOf]) (by simp [hp, fileOf]) (by simp [needs]) (by simp)
    · obtain ⟨hdl, hfl, hplace⟩ := semfsWakeup_frame (s.count+resid) s
      refine h.goto (p := p) ?_ ?_ ?_ ?_ ?_
      · intro q hq
        simpa [State.goto, update_of_ne hq] using hplace q
      · simp only [State.goto, update_self, hdl]
        exact lock_keep (fun e => h.desc e p) (by simp [hp, descOf])
      · simp only [State.goto, update_self, hfl]
        exact lock_keep (fun g => h.file g p) (by simp [hp, fileOf])
      · simp [State.goto]
      · simp [State.goto, needs]

theorem advance_separate (h : Separate s)
    (hg : ∀ d f resid, s.place p = .readLoop d f resid → s.count < resid → ∀ u, ¬needs d f (s.place u))
    (hs : advance p s = .ok s') : Separate s' := by
  cases hp : s.place p with
  | idle => simp [advance, hp] at hs
  | readAsleep d f resid => simp [advance, hp] at hs
  | readDesc d desc size =>
    simp only [advance, hp] at hs
    refine lockDesc_separate h (by simp [hp, descOf]) ?_ ?_ ?_ ?_ hs
    all_goals split <;> simp [hp, descOf, fileOf, needs]
  | readFile d f size =>
    simp only [advance, hp] at hs
    exact lockFile_separate h (by simp [hp, fileOf]) rfl (by simp [hp, descOf]) (by simp [needs]) (by simp) hs
  | readSem d f resid =>
    simp only [advance, hp, lockSem] at hs
    obtain ⟨-, rfl⟩ := acquire_ok hs
    exact h.pass rfl rfl rfl (by simp [hp, descOf]) (by simp [hp, fileOf]) (by simp [needs]) (by simp)
  | readWoken d f resid =>
    simp only [advance, hp, lockSem] at hs
    obtain ⟨-, rfl⟩ := acquire_ok hs
    exact h.pass rfl rfl rfl (by simp [hp, descOf]) (by simp [hp, fileOf]) (by simp [needs]) (by simp)
  | readLoop d f resid =>
    simp only [advance, hp] at hs
    cases hs
    exact semfsRead_separate h hp (hg d f resid hp)
  | writeDesc d desc size =>
    simp only [advance, hp] at hs
    refine lockDesc_separate h (by simp [hp, descOf]) ?_ ?_ ?_ ?_ hs
    · split <;> rfl
    · split <;> simp [hp, fileOf]
    · intro e f hn
      split at hn
      · cases hn
      · next hw =>
        rw [hp]
        exact .inr ⟨hw, hn⟩
    · split <;> simp
  | writeFile d f size =>
    simp only [advance, hp] at hs
    exact lockFile_separate h (by simp [hp, fileOf]) rfl (by simp [hp, descOf]) (by simp [needs]) (by simp) hs
  | writeSem d f resid =>
    simp only [advance, hp, lockSem] at hs
    obtain ⟨-, rfl⟩ := acquire_ok hs
    exact h.pass rfl rfl rfl (by simp [hp, descOf]) (by simp [hp, fileOf]) (by simp [needs]) (by simp)
  | writeBody d f resid =>
    simp only [advance, hp] at hs
    cases hs
    exact semfsWrite_separate h hp
  | unlockSem d f =>
    simp only [advance, hp] at hs
    cases hs
    exact h.pass rfl rfl rfl (by simp [hp, descOf]) (by simp [hp, fileOf]) (by simp [needs]) (by simp)
  | unlockFile d f =>
    simp only [advance, hp] at hs
    cases hs
    exact h.move rfl (lock_keep (fun e => h.desc e p) (by simp [hp, descOf]))
      (lock_drop (fun g => h.file g p) (by simp [hp, fileOf])) (by simp) (by simp [needs])
  | unlockDesc d =>
    simp only [advance, hp] at hs
    cases hs
    exact h.move rfl (lock_drop (fun e => h.desc e p) (by simp [hp, descOf]))
      (lock_keep (fun g => h.file g p) (by simp [hp, fileOf])) (by simp) (by simp [needs])

/-- The file tables change, the locks and the processes in the calls do not. -/
theorem table_frame {sem : ℕ} {a : FileRuns.Action} (hs : step sem (.table a) s = .ok s') :
    s'.place = s.place ∧ s'.descLock = s.descLock ∧ s'.fileLock = s.fileLock := by
  simp only [step, table] at hs
  split at hs
  · split at hs
    · cases hs
    · split at hs
      · cases hs
      · split at hs
        · split at hs
          · cases hs
            exact ⟨rfl, rfl, rfl⟩
          · cases hs
        · cases hs
          exact ⟨rfl, rfl, rfl⟩
  · cases hs

theorem step_separate {sem : ℕ} {a : Action} (h : Separate s) (hg : Apart sem a s)
    (hs : step sem a s = .ok s') : Separate s' := by
  cases a with
  | table a =>
    obtain ⟨hp, hd, hf⟩ := table_frame hs
    refine ⟨?_, ?_, ?_⟩
    · rw [hp, hd]
      exact h.desc
    · rw [hp, hf]
      exact h.file
    · rw [hp]
      exact h.apart
  | sysRead p fd size =>
    simp only [step] at hs
    split at hs
    · next hidle =>
      split at hs
      · cases hs
      · cases hs
        exact h.pass rfl rfl rfl (by simp [hidle.1, descOf]) (by simp [hidle.1, fileOf]) (by simp [needs])
          (by simp)
    · cases hs
  | sysWrite p fd size =>
    simp only [step] at hs
    split at hs
    · next hidle =>
      split at hs
      · cases hs
      · next e desc hd =>
        cases hs
        refine h.move rfl (lock_keep (fun e => h.desc e p) (by simp [hidle.1, descOf]))
          (lock_keep (fun g => h.file g p) (by simp [hidle.1, fileOf])) (by simp) ?_
        intro d f hn
        exact .inr (fun u resid hu => hg e desc hd u d f resid hu hn)
    · cases hs
  | advance p => exact advance_separate h hg hs

theorem boot_separate (devices : Refcounts) (count : UInt32) : Separate (boot devices count) := by
  constructor <;> simp [boot]

/-- In every run in which a `sys_write` begins only while no `sys_read` with its
locks is asleep, and a `sys_read` goes to sleep only while no `sys_write` needs
its locks, no `sys_write` is ever stopped by a sleeping `sys_read`. -/
theorem guarded_run_unjammed (sem : ℕ) (devices : Refcounts) (count : UInt32) (as : List Action) (s : State)
    (hg : Runs.Guarded (step sem) (Apart sem) as (boot devices count))
    (hr : run sem as (boot devices count) = .ok s) : Unjammed s :=
  (Runs.guarded_invariant (fun _ _ _ h hg hs => step_separate h hg hs) hg (boot_separate devices count)
    hr).unjammed

theorem tables_place {sem : ℕ} {as : List FileRuns.Action} (hr : run sem (as.map .table) s = .ok s') :
    s'.place = s.place := by
  induction as generalizing s with
  | nil =>
    cases hr
    rfl
  | cons a as ih =>
    obtain ⟨t, hs, hrest⟩ := Runs.run_cons_ok.mp hr
    exact (ih hrest).trans (table_frame hs).1

theorem tables_guarded (sem : ℕ) (as : List FileRuns.Action) (s : State) :
    Runs.Guarded (step sem) (Apart sem) (as.map .table) s := by
  induction as generalizing s with
  | nil => trivial
  | cons a as ih => exact ⟨trivial, fun s' _ => ih s'⟩

/-- Two processes open the semaphore, vnode 7, each for itself. -/
def opened : List FileRuns.Action :=
  [.runprogram (some 9), .openLookup 0 7 2, .openGlobal 0 true, .openLocal 0 true,
    .runprogram (some 9), .openLookup 1 7 2, .openGlobal 1 true, .openLocal 1 true]

/-- A process opens the semaphore and forks. -/
def inherited : List FileRuns.Action :=
  [.runprogram (some 9), .openLookup 0 7 2, .openGlobal 0 true, .openLocal 0 true, .fork 0]

/-- A `sys_write` while nobody reads. -/
theorem opened_unjammed :
    ∃ s, run 7 (opened.map .table ++ [.sysWrite 1 3 1]) (boot FileRuns.console 0) = .ok s ∧
      s.place 1 = .writeDesc 4 ⟨3, O_RDWR, 0, -1⟩ 1 ∧ Unjammed s := by
  obtain ⟨s, hr, hp⟩ : ∃ s, run 7 (opened.map .table ++ [.sysWrite 1 3 1]) (boot FileRuns.console 0) = .ok s ∧
      s.place 1 = .writeDesc 4 ⟨3, O_RDWR, 0, -1⟩ 1 := by decide +kernel
  refine ⟨s, hr, hp, guarded_run_unjammed 7 FileRuns.console 0 _ s ?_ hr⟩
  refine Runs.guarded_append.mpr ⟨tables_guarded 7 opened _, fun t ht => ⟨?_, fun _ _ => trivial⟩⟩
  intro e desc _ u d f resid hu
  rw [tables_place ht] at hu
  cases hu

/-- Process 0 waits for a unit. -/
def waits : List Action := .sysRead 0 3 1 :: List.replicate 4 (.advance 0)

/-- Process 1 brings one: it stops at the lock of the file, or at that of the
descriptor if it has inherited it. Neither process can go on. -/
theorem waits_jams :
    (∃ s, run 7 (opened.map .table ++ waits ++ [.sysWrite 1 3 1, .advance 1]) (boot FileRuns.console 0) = .ok s ∧
      s.place 0 = .readAsleep 3 3 1 ∧ s.place 1 = .writeFile 4 3 1 ∧
      step 7 (.advance 0) s = .error .blocked ∧ step 7 (.advance 1) s = .error .blocked ∧ ¬Unjammed s) ∧
    ∃ s, run 7 (inherited.map .table ++ waits ++ [.sysWrite 1 3 1]) (boot FileRuns.console 0) = .ok s ∧
      s.place 0 = .readAsleep 3 3 1 ∧ s.descLock 3 = some 0 ∧
      step 7 (.advance 0) s = .error .blocked ∧ step 7 (.advance 1) s = .error .blocked ∧ ¬Unjammed s := by
  constructor
  · obtain ⟨s, hr, h0, h1, hw, hb0, hb1⟩ :
        ∃ s, run 7 (opened.map .table ++ waits ++ [.sysWrite 1 3 1, .advance 1]) (boot FileRuns.console 0) = .ok s ∧
          s.place 0 = .readAsleep 3 3 1 ∧ s.place 1 = .writeFile 4 3 1 ∧ wants s 1 = some 0 ∧
          step 7 (.advance 0) s = .error .blocked ∧ step 7 (.advance 1) s = .error .blocked := by
      decide +kernel
    exact ⟨s, hr, h0, h1, hb0, hb1, fun h => h 1 0 hw 3 3 1 h0⟩
  · obtain ⟨s, hr, h0, h1, hw, hb0, hb1⟩ :
        ∃ s, run 7 (inherited.map .table ++ waits ++ [.sysWrite 1 3 1]) (boot FileRuns.console 0) = .ok s ∧
          s.place 0 = .readAsleep 3 3 1 ∧ s.descLock 3 = some 0 ∧ wants s 1 = some 0 ∧
          step 7 (.advance 0) s = .error .blocked ∧ step 7 (.advance 1) s = .error .blocked := by
      decide +kernel
    exact ⟨s, hr, h0, h1, hb0, hb1, fun h => h 1 0 hw 3 3 1 h0⟩

end OS161.SemFs
