import OS161.Runs
import OS161.Slots
import OS161.Vfs

/-!
# Processes, their table, and fork, exit and waitpid

A `struct proc` knows its parent and an array of children by pointer; its pid
is the index of its entry in `Global_Proc_Table`. An entry outlives the process
until it is reaped, a process is destroyed right after `sys__exit`. The
functions follow `proc.c` and the three system calls; a system call that
releases and takes locks on its way is split into the actions below, each by
the thread of one process.
-/

set_option autoImplicit false

namespace OS161.ProcessTable

open Function OS161.Slots OS161.Vfs

abbrev MAX_PROCS : ℕ := 128
abbrev MAX_CHILDS : ℕ := 32

instance neZeroMaxProcs : NeZero MAX_PROCS := ⟨by decide⟩

structure Proc where
  pid : ℤ
  parent : Option ℕ
  numChilds : ℕ
  childs : SlotArray MAX_CHILDS ℕ

structure Entry where
  pcb : ℕ
  termed : Bool
  pTermed : Bool
  exitcode : ℤ
  deriving DecidableEq

/-- The user's status pointer as `copyout` finds it. -/
inductive Status where
  | null
  | valid
  | bad
  deriving DecidableEq

/-- How far a `sys_fork`, or the menu's `proc_create_runprogram`, has come. -/
inductive Forking where
  | checked
  | admitted
  | created (child : ℕ)
  | counted (child : ℕ)
  | started (child : ℕ)
  deriving DecidableEq

inductive Stage where
  | absent
  | menu
  | embryo
  | loading
  | running
  | forking (f : Forking)
  | waiting (target : ℤ) (entry : ℕ) (status : Status)
  | woken (target : ℤ) (entry : ℕ) (status : Status)
  | exited
  deriving DecidableEq

/-- A finished `sys_waitpid`: its status pointer and what it returned. -/
structure Call where
  status : Status
  result : Except Errno (ℤ × Option ℤ)
  deriving DecidableEq

/-- `exits`, `known` and `calls` only record the past: the code each process
passed to `sys__exit`, the last child for which `sys_fork` returned a pid to a
process, and the calls of `sys_waitpid` that each child's parent has made on it. -/
structure System where
  procs : Store Proc
  entries : Store Entry
  table : SlotArray MAX_PROCS ℕ
  count : ℕ
  stage : ℕ → Stage
  exits : ℕ → Option ℤ
  known : ℕ → ℤ → Option ℕ
  calls : ℕ → List Call

inductive Action where
  | runprogram
  | fork (p : ℕ)
  | recheck (p : ℕ)
  | insert (p : ℕ) (mem : Bool) (junk : ℤ)
  | countUp (p : ℕ)
  | start (p : ℕ) (mem : Bool)
  | record (p : ℕ) (junk : ℤ)
  | enter (p : ℕ) (loaded : Bool)
  | exit (p : ℕ) (code : ℤ)
  | destroy (p : ℕ)
  | waitpid (p : ℕ) (target : ℤ) (status : Status) (opts : ℤ)
  | wake (p : ℕ)

def kproc : ℕ := 0

def System.setStage (s : System) (p : ℕ) (st : Stage) : System :=
  { s with stage := update s.stage p st }

/-- Where a process goes when its attempt to create another one is over. -/
def home (p : ℕ) : Stage := if p = kproc then .menu else .running

/-- `Global_Proc_Table[k]`. -/
def entryAt (k : ℤ) (s : System) : Except Stop (Option ℕ) :=
  if h : 0 ≤ k ∧ k < MAX_PROCS then .ok (s.table ⟨k.toNat, by omega⟩) else .error .outOfBounds

/-- `Global_Proc_Table[k] = NULL`. -/
def clearAt (k : ℤ) (t : SlotArray MAX_PROCS ℕ) : SlotArray MAX_PROCS ℕ :=
  if h : 0 ≤ k ∧ k < MAX_PROCS then update t ⟨k.toNat, by omega⟩ none else t

/-- The menu starts a program: the check at the head of `proc_create`. -/
def runprogram (s : System) : Except Stop System :=
  match s.stage kproc with
  | .menu => .ok (if s.count ≥ MAX_PROCS then s else s.setStage kproc (.forking .admitted))
  | _ => .error .blocked

/-- The checks at the head of `sys_fork`, with their errors. -/
def forkChecks (p : ℕ) (s : System) : Except Stop (Option Errno) :=
  if s.count ≥ MAX_PROCS then .ok (some .enproc)
  else match s.procs.get p with
    | none => .error .useAfterFree
    | some pcb => .ok (if pcb.numChilds ≥ MAX_CHILDS then some .emproc else none)

def fork (p : ℕ) (s : System) : Except Stop System :=
  match s.stage p with
  | .running =>
    match forkChecks p s with
    | .error e => .error e
    | .ok (some _) => .ok s
    | .ok none => .ok (s.setStage p (.forking .checked))
  | _ => .error .blocked

/-- `proc_create` looks at the count once more, still without a lock. -/
def recheck (p : ℕ) (s : System) : Except Stop System :=
  match s.stage p with
  | .forking .checked =>
    .ok (s.setStage p (if s.count ≥ MAX_PROCS then .running else .forking .admitted))
  | _ => .error .blocked

/-- The part of `proc_create` under `GPT_lock`. When no slot is free the new
process keeps the pid that happened to be in its memory. -/
def insertProc (p : ℕ) (junk : ℤ) (s : System) : System :=
  let c := s.procs.next
  let e := s.entries.next
  match firstFree s.table with
  | some i =>
    { s with
      procs := s.procs.alloc ⟨i.val, some p, 0, SlotArray.empty⟩
      entries := s.entries.alloc ⟨c, false, false, 0⟩
      table := update s.table i (some e)
      stage := update (update s.stage c .embryo) p (.forking (.created c)) }
  | none =>
    { s with
      procs := s.procs.alloc ⟨junk, some p, 0, SlotArray.empty⟩
      entries := s.entries.alloc ⟨c, false, false, 0⟩
      stage := update (update s.stage c .embryo) p (.forking (.created c)) }

def insert (p : ℕ) (mem : Bool) (junk : ℤ) (s : System) : Except Stop System :=
  match s.stage p with
  | .forking .admitted => .ok (if mem then insertProc p junk s else s.setStage p (home p))
  | _ => .error .blocked

def countUp (p : ℕ) (s : System) : Except Stop System :=
  match s.stage p with
  | .forking (.created c) => .ok { s.setStage p (.forking (.counted c)) with count := s.count+1 }
  | _ => .error .blocked

/-- `thread_fork`, or one of the allocations before it, may fail; then the new
process is destroyed again. -/
def start (p : ℕ) (mem : Bool) (s : System) : Except Stop System :=
  match s.stage p with
  | .forking (.counted c) =>
    .ok (if !mem then
        { s with
          procs := s.procs.free c
          stage := update (update s.stage c .absent) p (home p) }
      else if p = kproc then { s with stage := update (update s.stage c .loading) p .menu }
      else { s with stage := update (update s.stage c .running) p (.forking (.started c)) })
  | _ => .error .blocked

/-- The end of `sys_fork`. A child that is gone by now leaves its pid unread. -/
def record (p : ℕ) (junk : ℤ) (s : System) : Except Stop System :=
  match s.stage p with
  | .forking (.started c) =>
    match s.procs.get p with
    | none => .error .useAfterFree
    | some pcb =>
      let childs := match firstFree pcb.childs with
        | some i => update pcb.childs i (some c)
        | none => pcb.childs
      let pid := match s.procs.get c with
        | some child => child.pid
        | none => junk
      .ok { s with
        procs := s.procs.set p { pcb with numChilds := pcb.numChilds+1, childs := childs }
        stage := update s.stage p .running
        known := update s.known p (update (s.known p) pid (some c)) }
  | _ => .error .blocked

/-- `cmd_progthread`: a program that cannot be loaded takes its process with it. -/
def enter (p : ℕ) (loaded : Bool) (s : System) : Except Stop System :=
  match s.stage p with
  | .loading =>
    .ok (if loaded then s.setStage p .running
      else { s with procs := s.procs.free p, stage := update s.stage p .absent })
  | _ => .error .blocked

/-- The loop of `sys__exit` over the children. -/
def markChildren (childs : SlotArray MAX_CHILDS ℕ) :
    List (Fin MAX_CHILDS) → System → Except Stop System
  | [], s => .ok s
  | i::is, s =>
    match childs i with
    | none => markChildren childs is s
    | some c =>
      match s.procs.get c with
      | none => .error .useAfterFree
      | some child =>
        match entryAt child.pid s with
        | .error e => .error e
        | .ok none => .error .panic
        | .ok (some e) =>
          match s.entries.get e with
          | none => .error .useAfterFree
          | some en =>
            markChildren childs is { s with entries := s.entries.set e { en with pTermed := true } }

def Stage.wakeOn (entry : ℕ) : Stage → Stage
  | .waiting k e st => if e = entry then .woken k e st else .waiting k e st
  | st => st

/-- `cv_broadcast(current->waiting)`. -/
def broadcast (entry : ℕ) (s : System) : System :=
  { s with stage := fun q => (s.stage q).wakeOn entry }

/-- The loop of `sys__exit` over the parent's children. -/
def unlink (p : ℕ) (parent : Option ℕ) (s : System) : Except Stop System :=
  match parent with
  | none => .error .panic
  | some q =>
    match s.procs.get q with
    | none => .error .useAfterFree
    | some par =>
      match indexOf p par.childs with
      | none => .ok s
      | some j => .ok { s with procs := s.procs.set q { par with childs := update par.childs j none } }

def exit (p : ℕ) (code : ℤ) (s : System) : Except Stop System :=
  match s.stage p with
  | .running =>
    match s.procs.get p with
    | none => .error .useAfterFree
    | some pcb =>
      match entryAt pcb.pid s with
      | .error e => .error e
      | .ok none => .error .panic
      | .ok (some cur) =>
        match s.entries.get cur with
        | none => .error .useAfterFree
        | some en =>
          match markChildren pcb.childs (List.finRange _)
              { s with entries := s.entries.set cur { en with termed := true, exitcode := code } } with
          | .error e => .error e
          | .ok s1 =>
            let s2 := broadcast cur s1
            let s3 := if (s2.entries.get cur).any Entry.pTermed
              then { s2 with table := clearAt pcb.pid s2.table } else s2
            match unlink p pcb.parent s3 with
            | .error e => .error e
            | .ok s4 => .ok { s4.setStage p .exited with exits := update s4.exits p (some code) }
  | _ => .error .blocked

/-- `proc_remthread` and `proc_destroy`, after `sys__exit` has let go of the lock. -/
def destroy (p : ℕ) (s : System) : Except Stop System :=
  match s.stage p with
  | .exited => .ok { s with procs := s.procs.free p, stage := update s.stage p .absent }
  | _ => .error .blocked

/-- The scan of `sys_waitpid` for a child with this pid. -/
def hasChild (childs : SlotArray MAX_CHILDS ℕ) (target : ℤ) (s : System) :
    List (Fin MAX_CHILDS) → Except Stop Bool
  | [] => .ok false
  | i::is =>
    match childs i with
    | none => hasChild childs target s is
    | some c =>
      match s.procs.get c with
      | none => .error .useAfterFree
      | some child => if child.pid = target then .ok true else hasChild childs target s is

/-- The call by `p` on `target` is over. -/
def returns (p : ℕ) (target : ℤ) (status : Status) (r : Except Errno (ℤ × Option ℤ)) (s : System) :
    System :=
  { s with
    calls := match s.known p target with
      | some c => update s.calls c (s.calls c ++ [⟨status, r⟩])
      | none => s.calls }

/-- The end of `sys_waitpid`, with the lock held and the target dead. -/
def reap (p : ℕ) (target : ℤ) (entry : ℕ) (status : Status) (s : System) : Except Stop System :=
  match s.entries.get entry with
  | none => .error .useAfterFree
  | some en =>
    if !en.termed then .error .panic
    else match status with
      | .bad => .ok ((returns p target status (.error .efault) s).setStage p .running)
      | .valid =>
        .ok ((returns p target status (.ok (target, some en.exitcode))
          { s with table := clearAt target s.table }).setStage p .running)
      | .null =>
        .ok ((returns p target status (.ok (target, none))
          { s with table := clearAt target s.table }).setStage p .running)

/-- `sys_waitpid` up to its end or to the sleep in `cv_wait`. There is no
upper bound on the index into the table. -/
def waitpid (p : ℕ) (target : ℤ) (status : Status) (opts : ℤ) (s : System) : Except Stop System :=
  match s.stage p with
  | .running =>
    if opts ≠ 0 then .ok s
    else if target ≤ 0 then .ok (returns p target status (.error .esrch) s)
    else match entryAt target s with
      | .error e => .error e
      | .ok none => .ok (returns p target status (.error .esrch) s)
      | .ok (some e) =>
        match s.procs.get p with
        | none => .error .useAfterFree
        | some pcb =>
          match hasChild pcb.childs target s (List.finRange _) with
          | .error stop => .error stop
          | .ok false => .ok (returns p target status (.error .echild) s)
          | .ok true =>
            match s.entries.get e with
            | none => .error .useAfterFree
            | some en =>
              if en.termed then reap p target e status s
              else .ok (s.setStage p (.waiting target e status))
  | _ => .error .blocked

def wake (p : ℕ) (s : System) : Except Stop System :=
  match s.stage p with
  | .woken target e status => reap p target e status s
  | _ => .error .blocked

def step : Action → System → Except Stop System
  | .runprogram, s => runprogram s
  | .fork p, s => fork p s
  | .recheck p, s => recheck p s
  | .insert p mem junk, s => insert p mem junk s
  | .countUp p, s => countUp p s
  | .start p mem, s => start p mem s
  | .record p junk, s => record p junk s
  | .enter p loaded, s => enter p loaded s
  | .exit p code, s => exit p code s
  | .destroy p, s => destroy p s
  | .waitpid p target status opts, s => waitpid p target status opts s
  | .wake p, s => wake p s

/-- `proc_bootstrap` makes the kernel's process and enters it at index 0. -/
def procBootstrap : System where
  procs := Store.empty.alloc ⟨0, none, 0, SlotArray.empty⟩
  entries := Store.empty.alloc ⟨kproc, false, false, 0⟩
  table := fun i => if i = 0 then some 0 else none
  count := 1
  stage := fun p => if p = kproc then .menu else .absent
  exits := fun _ => none
  known := fun _ _ => none
  calls := fun _ => []

/-- `file_table_bootstrap`, at the end of the boot, empties the table. -/
def fileTableBootstrap (s : System) : System := { s with table := SlotArray.empty }

def boot : System := fileTableBootstrap procBootstrap

abbrev run : List Action → System → Except Stop System := Runs.run step

/-- The menu starts a program, whose process has address 1. -/
def started : List Action :=
  [.runprogram, .insert 0 true 0, .countUp 0, .start 0 true, .enter 1 true]

/-- A whole fork by one process. -/
def forked (p : ℕ) : List Action :=
  [.fork p, .recheck p, .insert p true 0, .countUp p, .start p true, .record p 0]

end OS161.ProcessTable
