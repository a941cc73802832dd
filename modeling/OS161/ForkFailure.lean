import OS161.FileTable
import OS161.ProcessEffects

/-!
# What a failed fork leaves behind

`sys_fork` collects a slot of the process table, a reference to the current
directory, an address space, a copy of the file table and a trapframe. When
something is not to be had it leaves the rest to `proc_destroy`, which knows of
the file table, the directory and the address space but not of the slot, nor of
the count of processes. The call is followed here on one state that holds the
process table and the file tables; the processes that do not call stand still.
-/

set_option autoImplicit false

namespace OS161.ForkFailure

open Function OS161.Slots OS161.Vfs OS161.ProcessTable
open OS161.FileTable (localTableCreate localTableCloseAll localTableCopy closeSlots fileDescDestroy)

/-- `sys` is the process table with the processes' numbers and children;
`cwd` and `space` are `p_cwd` and `p_addrspace`. -/
structure Kernel where
  sys : System
  files : FileTable.State
  cwd : ℕ → Option ℕ
  space : ℕ → Option ℕ

/-- What the allocator and the functions outside of this model answer, and the
number that happens to be in the memory of a new process. -/
structure Answers where
  proc : Bool
  name : Bool
  localTable : Bool
  mutex : Bool
  entry : Bool
  junk : ℤ
  asCopy : Except Errno ℕ
  trapframe : Bool
  threadFork : Option Errno

/-- Everything that `proc_create` asks for is to be had. -/
def Answers.created (o : Answers) : Bool := o.proc && o.name && o.localTable && o.mutex && o.entry

def Kernel.setRefcount (s : Kernel) (c : Refcounts) : Kernel := { s with files := { s.files with refcount := c } }

def Kernel.setLocal (s : Kernel) (p : ℕ) (t : FileTable.LocalFileTable) : Kernel :=
  { s with files := { s.files with locals := update s.files.locals p t } }

/-- `local_table_destroy`. -/
def localTableDestroy (p : ℕ) (s : Kernel) : Except Stop Kernel :=
  match localTableCloseAll p s.files with
  | .error e => .error e
  | .ok files => .ok { s with files := files }

/-- The process it returns is the next one of the store. -/
def procCreate (p : ℕ) (o : Answers) (s : Kernel) : Except Stop (Option ℕ × Kernel) :=
  let c := s.sys.procs.next
  if s.sys.count ≥ MAX_PROCS then .ok (none, s)
  else if !o.proc then .ok (none, s)
  else if !o.name then .ok (none, s)
  else if !o.localTable then .ok (none, s)
  else
    let s1 := s.setLocal c localTableCreate
    if !o.mutex then (localTableDestroy c s1).map (fun s2 => (none, s2))
    else if !o.entry then (localTableDestroy c s1).map (fun s2 => (none, s2))
    else
      let sys := insertProc p o.junk s1.sys
      .ok (some c, { s1 with
        sys := { sys with count := sys.count+1 }
        cwd := update s1.cwd c none
        space := update s1.space c none })

/-- The process is not the caller, so its address space is not active. -/
def procDestroy (c : ℕ) (s : Kernel) : Except Stop Kernel :=
  match localTableDestroy c s with
  | .error e => .error e
  | .ok s1 =>
    let s2 := { s1 with
      sys := { s1.sys with procs := s1.sys.procs.free c, stage := update s1.sys.stage c .absent }
      cwd := update s1.cwd c none
      space := update s1.space c none }
    match s1.cwd c with
    | none => .ok s2
    | some vn =>
      match vnodeDecref vn s1.files.refcount with
      | .error e => .error e
      | .ok refs => .ok (s2.setRefcount refs)

/-- `proc_destroy` and the return with the error. -/
def giveUp (c : ℕ) (e : Errno) (s : Kernel) : Except Stop (Except Errno ℤ × Kernel) :=
  match procDestroy c s with
  | .error stop => .error stop
  | .ok s' => .ok (.error e, s')

/-- The end of `sys_fork`: the parent records its child. -/
def recordChild (p c : ℕ) (s : Kernel) : Except Stop (Except Errno ℤ × Kernel) :=
  match s.sys.procs.get p, s.sys.procs.get c with
  | some pcb, some child =>
    let childs := match firstFree pcb.childs with
      | some i => update pcb.childs i (some c)
      | none => pcb.childs
    .ok (.ok child.pid, { s with
      sys := { s.sys with
        procs := s.sys.procs.set p { pcb with numChilds := pcb.numChilds+1, childs := childs } } })
  | _, _ => .error .useAfterFree

def sysFork (p : ℕ) (o : Answers) (s : Kernel) : Except Stop (Except Errno ℤ × Kernel) :=
  match forkChecks p s.sys with
  | .error stop => .error stop
  | .ok (some e) => .ok (.error e, s)
  | .ok none =>
    match procCreate p o s with
    | .error stop => .error stop
    | .ok (none, s1) => .ok (.error .enomem, s1)
    | .ok (some c, s1) =>
      match s1.cwd p with
      | none => .error .panic
      | some vn =>
        match vnodeIncref vn s1.files.refcount with
        | .error stop => .error stop
        | .ok refs =>
          let s2 := { s1.setRefcount refs with cwd := update s1.cwd c (some vn) }
          match o.asCopy with
          | .error e => giveUp c e s2
          | .ok as =>
            match localTableCopy p c s2.files with
            | .error stop => .error stop
            | .ok files =>
              let s3 := { s2 with files := files, space := update s2.space c (some as) }
              if !o.trapframe then giveUp c .enomem s3
              else match o.threadFork with
                | some e => giveUp c e s3
                | none => recordChild p c s3

/-- The state after a failed call is as the caller left it, but for the local
table of the process that was to be. No entry of the table has come to refer to
a process that is destroyed. -/
structure Restored (p : ℕ) (s s' : Kernel) : Prop where
  table : s'.sys.table = s.sys.table
  count : s'.sys.count = s.sys.count
  childs : ∀ pcb, s.sys.procs.get p = some pcb → ∃ pcb', s'.sys.procs.get p = some pcb' ∧
    pcb'.childs = pcb.childs ∧ pcb'.numChilds = pcb.numChilds
  refcount : s'.files.refcount = s.files.refcount
  locals : ∀ q, q ≠ s.sys.procs.next → s'.files.locals q = s.files.locals q
  refers : ∀ i e en, s'.sys.table i = some e → s'.sys.entries.get e = some en →
    s'.sys.procs.get en.pcb = none → s.sys.table i = some e ∧ s.sys.procs.get en.pcb = none

/-- What is asked of a call that has to fail. -/
def FailsCleanly (p : ℕ) (o : Answers) (s : Kernel) : Prop :=
  ∃ e s', sysFork p o s = .ok (.error e, s') ∧ Restored p s s'

variable {s s' : Kernel} {p c : ℕ} {o : Answers}

theorem Restored.refl : Restored p s s :=
  ⟨rfl, rfl, fun pcb h => ⟨pcb, h, rfl, rfl⟩, rfl, fun _ _ => rfl, fun _ _ _ hi _ hp => ⟨hi, hp⟩⟩

end OS161.ForkFailure
