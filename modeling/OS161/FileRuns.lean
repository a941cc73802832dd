import OS161.FileOpening
import OS161.Runs

/-!
# The file tables under interleaved system calls

Any number of processes issue `open`, `close`, `dup2`, `fork`, `chdir`,
`execv` and exit. One action is one critical section of a table lock, so an
open takes four: `vfs_open`, the global section, the local section, and the
undoing when the local section fails. Between them any other process may act;
the process itself has one thread and does nothing else meanwhile.
-/

set_option autoImplicit false

namespace OS161.FileRuns

open Function OS161.Slots OS161.Vfs OS161.FileTable OS161.FileOwnership

/-- How far a process has come in `sys_open`. The vnode is the one the call
holds a reference on. -/
inductive Opening where
  | idle
  | vnode (vn flags : ℕ)
  | file (vn file flags : ℕ)
  | undo (vn file : ℕ)
  deriving DecidableEq

def Opening.node : Opening → Option ℕ
  | .idle => none
  | .vnode vn _ => some vn
  | .file vn _ _ => some vn
  | .undo vn _ => some vn

def Opening.pin : Opening → Option (ℕ × ℕ)
  | .file vn f _ => some (vn, f)
  | .undo vn f => some (vn, f)
  | _ => none

structure Process where
  alive : Bool
  opening : Opening
  cwd : Option ℕ
  loading : Option ℕ
  deriving DecidableEq

def Process.none : Process := ⟨false, .idle, Option.none, Option.none⟩

def Process.setOpening (pr : Process) (o : Opening) : Process := { pr with opening := o }

def Process.setCwd (pr : Process) (x : Option ℕ) : Process := { pr with cwd := x }

def Process.setLoading (pr : Process) (x : Option ℕ) : Process := { pr with loading := x }

/-- `others` counts the references no process holds: the device list's own,
and those of executables that `sys_execv` never closed. -/
structure System where
  ft : State
  procs : ℕ → Process
  nprocs : ℕ
  others : Refcounts

inductive Action where
  | runprogram (cwd : Option ℕ)
  | openLookup (p vn flags : ℕ)
  | openGlobal (p : ℕ) (mem : Bool)
  | openLocal (p : ℕ) (mem : Bool)
  | openUndo (p : ℕ)
  | close (p : ℕ) (fd : ℤ)
  | dup2 (p : ℕ) (oldfd newfd : ℤ)
  | fork (p : ℕ)
  | exit (p : ℕ)
  | chdir (p vn : ℕ)
  | execOpen (p vn : ℕ)
  | execClose (p : ℕ)
  | execAbandon (p : ℕ)

def System.ready (s : System) (p : ℕ) : Bool :=
  (s.procs p).alive && decide ((s.procs p).opening = .idle) && (s.procs p).loading.isNone

def System.withProc (s : System) (p : ℕ) (ft : State) (pr : Process) : System :=
  { s with ft := ft, procs := update s.procs p pr }

def increfAll (x : Option ℕ) (c : Refcounts) : Except Stop Refcounts :=
  match x with
  | none => .ok c
  | some vn => vnodeIncref vn c

def decrefAll (x : Option ℕ) (c : Refcounts) : Except Stop Refcounts :=
  match x with
  | none => .ok c
  | some vn => vnodeDecref vn c

/-- `proc_create_runprogram`: the menu's new process gets a table of its own
and the kernel's current directory. -/
def runprogram (cwd : Option ℕ) (s : System) : Except Stop System :=
  match increfAll cwd s.ft.refcount with
  | .error e => .error e
  | .ok c => .ok { s with
      ft := { s.ft with refcount := c, locals := update s.ft.locals s.nprocs localTableCreate }
      procs := update s.procs s.nprocs ⟨true, .idle, cwd, none⟩
      nprocs := s.nprocs+1 }

def openGlobal (p : ℕ) (mem : Bool) (s : System) : Except Stop System :=
  match (s.procs p).opening with
  | .vnode vn flags =>
    match globalTableOpenFile vn mem s.ft with
    | .error e => .error e
    | .ok (.error _, ft) => .ok (s.withProc p ft ((s.procs p).setOpening .idle))
    | .ok (.ok file, ft) => .ok (s.withProc p ft ((s.procs p).setOpening (.file vn file flags)))
  | _ => .error .blocked

def openLocal (p : ℕ) (mem : Bool) (s : System) : Except Stop System :=
  match (s.procs p).opening with
  | .file vn file flags =>
    match localTableAddFile p file flags mem s.ft with
    | (.ok _, ft) => .ok (s.withProc p ft ((s.procs p).setOpening .idle))
    | (.error _, ft) => .ok (s.withProc p ft ((s.procs p).setOpening (.undo vn file)))
  | _ => .error .blocked

def openUndo (p : ℕ) (s : System) : Except Stop System :=
  match (s.procs p).opening with
  | .undo _ file =>
    match fileDestroy file s.ft with
    | .error e => .error e
    | .ok (_, ft) => .ok (s.withProc p ft ((s.procs p).setOpening .idle))
  | _ => .error .blocked

/-- The part of `sys_fork` that concerns files. A parent without a current
directory fails the assertion in `vnode_incref`. A fork that fails later on
destroys the new process: it is this action followed by the exit of a process
that never ran. -/
def fork (p : ℕ) (s : System) : Except Stop System :=
  match (s.procs p).cwd with
  | none => .error .panic
  | some vn =>
    match vnodeIncref vn s.ft.refcount with
    | .error e => .error e
    | .ok c =>
      match localTableCopy p s.nprocs
          { s.ft with refcount := c, locals := update s.ft.locals s.nprocs localTableCreate } with
      | .error e => .error e
      | .ok ft => .ok { s with
          ft := ft
          procs := update s.procs s.nprocs ⟨true, .idle, some vn, none⟩
          nprocs := s.nprocs+1 }

/-- `proc_destroy` closes every file, then drops the current directory. -/
def exit (p : ℕ) (s : System) : Except Stop System :=
  match localTableCloseAll p s.ft with
  | .error e => .error e
  | .ok ft =>
    match decrefAll (s.procs p).cwd ft.refcount with
    | .error e => .error e
    | .ok c => .ok (s.withProc p { ft with refcount := c } Process.none)

/-- `vfs_chdir` on a directory: a reference from the lookup, one for the
process, the old directory's given back, and the lookup's given back. -/
def chdir (p vn : ℕ) (s : System) : Except Stop System :=
  match vnodeIncref vn (acquired vn s.ft.refcount) with
  | .error e => .error e
  | .ok c =>
    match decrefAll (s.procs p).cwd c with
    | .error e => .error e
    | .ok c' =>
      match vnodeDecref vn c' with
      | .error e => .error e
      | .ok c'' => .ok (s.withProc p { s.ft with refcount := c'' } ((s.procs p).setCwd (some vn)))

def execClose (p : ℕ) (s : System) : Except Stop System :=
  match (s.procs p).loading with
  | none => .error .blocked
  | some vn =>
    match vfsClose vn s.ft.refcount with
    | .error e => .error e
    | .ok c => .ok (s.withProc p { s.ft with refcount := c } ((s.procs p).setLoading none))

/-- The returns of `sys_execv` that do not close the executable. -/
def execAbandon (p : ℕ) (s : System) : Except Stop System :=
  match (s.procs p).loading with
  | none => .error .blocked
  | some vn => .ok { s with
      procs := update s.procs p ((s.procs p).setLoading none)
      others := acquired vn s.others }

def step : Action → System → Except Stop System
  | .runprogram cwd, s => runprogram cwd s
  | .openLookup p vn flags, s =>
    if s.ready p then
      .ok (s.withProc p { s.ft with refcount := acquired vn s.ft.refcount }
        ((s.procs p).setOpening (.vnode vn flags)))
    else .error .blocked
  | .openGlobal p mem, s => openGlobal p mem s
  | .openLocal p mem, s => openLocal p mem s
  | .openUndo p, s => openUndo p s
  | .close p fd, s =>
    if s.ready p then (sysClose p fd s.ft).map (fun r => { s with ft := r.2 }) else .error .blocked
  | .dup2 p oldfd newfd, s =>
    if s.ready p then (sysDup2 p oldfd newfd s.ft).map (fun r => { s with ft := r.2.2 })
    else .error .blocked
  | .fork p, s => if s.ready p then fork p s else .error .blocked
  | .exit p, s => if s.ready p then exit p s else .error .blocked
  | .chdir p vn, s => if s.ready p then chdir p vn s else .error .blocked
  | .execOpen p vn, s =>
    if s.ready p then
      .ok (s.withProc p { s.ft with refcount := acquired vn s.ft.refcount }
        ((s.procs p).setLoading (some vn)))
    else .error .blocked
  | .execClose p, s => execClose p s
  | .execAbandon p, s => execAbandon p s

/-- The system after boot: no process yet, and the references the device
list and the kernel itself hold. -/
def boot (devices : Refcounts) : System :=
  ⟨globalTableCreate devices, fun _ => Process.none, 0, devices⟩

/-- A boot with one device, whose vnode 9 also serves as the kernel's current
directory. -/
def console : Refcounts := fun vn => if vn = 9 then 1 else 0

abbrev run : List Action → System → Except Stop System := Runs.run step

/-- References held by opens in progress. -/
def openRefs (s : System) (vn : ℕ) : ℕ :=
  total (fun p => pointsTo (s.procs p).opening.node vn) s.nprocs

def Process.outRefs (pr : Process) (vn : ℕ) : ℕ := pointsTo pr.cwd vn + pointsTo pr.loading vn

/-- References held outside the file tables: by current directories, by
executables being loaded, and by no process at all. -/
def outsideRefs (s : System) (vn : ℕ) : ℕ :=
  s.others vn + total (fun p => (s.procs p).outRefs vn) s.nprocs

def slotTotal (s : System) (vn : ℕ) : ℕ := tableRefs s.ft s.nprocs vn

end OS161.FileRuns
