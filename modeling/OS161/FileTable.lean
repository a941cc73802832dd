import OS161.Slots
import OS161.Vfs

/-!
# The global and the per-process file tables

A local table maps small integers to descriptors, a descriptor names a
global `File`, and a `File` names a vnode. Neither descriptors nor files carry
a count of their own: both are freed on the evidence of the vnode's reference
count. The functions below follow `file_table.c` branch by branch. Allocation
succeeds or fails as the caller of the model says, and a process's local table
is named by the process.
-/

set_option autoImplicit false

namespace OS161.FileTable

open Function OS161.Slots OS161.Vfs

abbrev MAX_LOCAL_TABLE_SIZE : ℕ := 16
abbrev MAX_GLOBAL_TABLE_SIZE : ℕ := 64

structure File where
  node : Option ℕ
  isStandard : Bool
  deriving DecidableEq

/-- `standard` is -1 for a descriptor that is none of the three console ones. -/
structure FileDesc where
  file : ℕ
  flags : ℕ
  seekLocation : ℤ
  standard : ℤ
  deriving DecidableEq

structure GlobalFileTable where
  files : SlotArray MAX_GLOBAL_TABLE_SIZE ℕ
  numOpenFiles : ℤ

structure LocalFileTable where
  files : SlotArray MAX_LOCAL_TABLE_SIZE ℕ
  numOpenFiles : ℤ

structure State where
  refcount : Refcounts
  files : Store File
  descs : Store FileDesc
  table : GlobalFileTable
  locals : ℕ → LocalFileTable

def State.slot (s : State) (p : ℕ) (i : Fin MAX_LOCAL_TABLE_SIZE) : Option ℕ := (s.locals p).files i

def State.setSlot (s : State) (p : ℕ) (i : Fin MAX_LOCAL_TABLE_SIZE) (x : Option ℕ) : State :=
  { s with locals := update s.locals p { s.locals p with files := update (s.locals p).files i x } }

def State.setNum (s : State) (p : ℕ) (k : ℤ) : State :=
  { s with locals := update s.locals p { s.locals p with numOpenFiles := k } }

def stdinFd : ℕ := 0
def stdoutFd : ℕ := 1
def stderrFd : ℕ := 2

def fileCreate (node : Option ℕ) (isStandard : Bool) (s : State) : ℕ × State :=
  (s.files.next, { s with files := s.files.alloc ⟨node, isStandard⟩ })

def fileDescCreate (file flags : ℕ) (standard : ℤ) (s : State) : ℕ × State :=
  (s.descs.next, { s with descs := s.descs.alloc ⟨file, flags &&& O_ACCMODE, 0, standard⟩ })

def removeFile (file : ℕ) (t : GlobalFileTable) : GlobalFileTable :=
  match indexOf file t.files with
  | some i => ⟨update t.files i none, t.numOpenFiles-1⟩
  | none => t

def fileDestroy (file : ℕ) (s : State) : Except Stop (Bool × State) :=
  match s.files.get file with
  | none => .error .useAfterFree
  | some f =>
    if f.isStandard then .ok (false, s)
    else match f.node with
      | none => .error .panic
      | some vn =>
        match vfsClose vn s.refcount with
        | .error e => .error e
        | .ok c =>
          if s.refcount vn = 1 then
            .ok (true, { s with refcount := c, table := removeFile file s.table, files := s.files.free file })
          else .ok (false, { s with refcount := c })

def fileDescDestroy (desc : ℕ) (s : State) : Except Stop State :=
  if desc = stdinFd ∨ desc = stdoutFd ∨ desc = stderrFd then .ok s
  else match s.descs.get desc with
    | none => .error .useAfterFree
    | some fd =>
      match fileDestroy fd.file s with
      | .error e => .error e
      | .ok (removed, s') => .ok (if removed then { s' with descs := s'.descs.free desc } else s')

def localTableCreate : LocalFileTable :=
  ⟨fun i => if i = 0 then some stdinFd else if i = 1 then some stdoutFd
    else if i = 2 then some stderrFd else none, 3⟩

/-- `mem` says whether the descriptor and its lock could be allocated. The
count is compared with the table size but not raised. -/
def localTableAddFile (p file flags : ℕ) (mem : Bool) (s : State) :
    Except Errno (Fin MAX_LOCAL_TABLE_SIZE) × State :=
  if (s.locals p).numOpenFiles = MAX_LOCAL_TABLE_SIZE then (.error .emfile, s)
  else if !mem then (.error .enospc, s)
  else
    let (f, s') := fileDescCreate file flags (-1) s
    match firstFree (s'.locals p).files with
    | some i => (.ok i, s'.setSlot p i (some f))
    | none => (.error .eio, s')

def localTableGet (p : ℕ) (fileHandle : ℤ) (s : State) : Option ℕ :=
  if h : 0 ≤ fileHandle ∧ fileHandle < MAX_LOCAL_TABLE_SIZE then
    s.slot p ⟨fileHandle.toNat, by omega⟩
  else none

/-- The body of `non_lock_close_file` once the handle is in range. -/
def closeSlot (p : ℕ) (i : Fin MAX_LOCAL_TABLE_SIZE) (s : State) :
    Except Stop (Option Errno × State) :=
  match s.slot p i with
  | none => .ok (some .ebadf, s)
  | some desc =>
    match fileDescDestroy desc ((s.setSlot p i none).setNum p ((s.locals p).numOpenFiles-1)) with
    | .error e => .error e
    | .ok s' => .ok (none, s')

def nonLockCloseFile (p : ℕ) (fileHandle : ℤ) (s : State) : Except Stop (Option Errno × State) :=
  if h : 0 ≤ fileHandle ∧ fileHandle < MAX_LOCAL_TABLE_SIZE then
    closeSlot p ⟨fileHandle.toNat, by omega⟩ s
  else .ok (some .ebadf, s)

def localTableCloseFile (p : ℕ) (fileHandle : ℤ) (s : State) : Except Stop (Option Errno × State) :=
  nonLockCloseFile p fileHandle s

def closeSlots (p : ℕ) : List (Fin MAX_LOCAL_TABLE_SIZE) → State → Except Stop State
  | [], s => .ok s
  | i::is, s =>
    match s.slot p i with
    | none => closeSlots p is (s.setSlot p i none)
    | some desc =>
      match fileDescDestroy desc (s.setSlot p i none) with
      | .error e => .error e
      | .ok s' => closeSlots p is s'

def localTableCloseAll (p : ℕ) (s : State) : Except Stop State :=
  match closeSlots p (List.finRange _) s with
  | .error e => .error e
  | .ok s' => .ok (s'.setNum p 0)

/-- The vnode a descriptor leads to, by the pointers `local_table_copy` and
`local_table_dup2` follow. -/
def descVnode (desc : ℕ) (s : State) : Except Stop (Option ℕ) :=
  match s.descs.get desc with
  | none => .error .useAfterFree
  | some fd =>
    match s.files.get fd.file with
    | none => .error .useAfterFree
    | some f => .ok f.node

def increfSlots (src : ℕ) : List (Fin MAX_LOCAL_TABLE_SIZE) → State → Except Stop State
  | [], s => .ok s
  | i::is, s =>
    match s.slot src i with
    | none => increfSlots src is s
    | some desc =>
      match descVnode desc s with
      | .error e => .error e
      | .ok none => increfSlots src is s
      | .ok (some vn) =>
        match vnodeIncref vn s.refcount with
        | .error e => .error e
        | .ok c => increfSlots src is { s with refcount := c }

/-- The slots whose vnodes `local_table_copy` references: those from 3 on. -/
def copiedSlots : List (Fin MAX_LOCAL_TABLE_SIZE) :=
  (List.finRange MAX_LOCAL_TABLE_SIZE).filter (fun i => 3 ≤ i.val)

def localTableCopy (src dest : ℕ) (s : State) : Except Stop State :=
  let s' := { s with locals := update s.locals dest { s.locals dest with files := (s.locals src).files } }
  match increfSlots src copiedSlots s' with
  | .error e => .error e
  | .ok s'' => .ok (s''.setNum dest (s''.locals src).numOpenFiles)

/-- The second half of `local_table_dup2`: the target slot is free, `desc`
goes into it and its vnode, if it has one, gains a reference. -/
def dupInto (p : ℕ) (new : Fin MAX_LOCAL_TABLE_SIZE) (desc : ℕ) (s : State) : Except Stop State :=
  let s' := s.setSlot p new (some desc)
  match s'.descs.get desc with
  | none => .error .useAfterFree
  | some fd =>
    if fd.standard = -1 then
      match descVnode desc s' with
      | .error e => .error e
      | .ok none => .error .panic
      | .ok (some vn) =>
        match vnodeIncref vn s'.refcount with
        | .error e => .error e
        | .ok c => .ok ({ s' with refcount := c }.setNum p ((s'.locals p).numOpenFiles+1))
    else .ok (s'.setNum p ((s'.locals p).numOpenFiles+1))

def localTableDup2 (p : ℕ) (old new : Fin MAX_LOCAL_TABLE_SIZE) (s : State) :
    Except Stop (Option Errno × State) :=
  if old = new then .ok (none, s)
  else match s.slot p old with
    | none => .ok (some .ebadf, s)
    | some desc =>
      match s.slot p new with
      | none => (dupInto p new desc s).map (fun s' => (none, s'))
      | some _ =>
        match closeSlot p new s with
        | .error e => .error e
        | .ok (some err, s') => .ok (some err, s')
        | .ok (none, s') => (dupInto p new desc s').map (fun s'' => (none, s''))

/-- The three console files and descriptors, allocated first; every other
vnode reference at this point is held by the device list. -/
def globalTableCreate (devices : Refcounts) : State where
  refcount := devices
  files := ((Store.empty.alloc ⟨none, true⟩).alloc ⟨none, true⟩).alloc ⟨none, true⟩
  descs := ((Store.empty.alloc ⟨0, O_RDONLY, 0, 0⟩).alloc ⟨1, O_WRONLY, 0, 1⟩).alloc ⟨2, O_WRONLY, 0, 2⟩
  table := ⟨fun i => if i.val < 3 then some i.val else none, 3⟩
  locals := fun _ => ⟨SlotArray.empty, 0⟩

/-- The scan of the global table for a `File` of this vnode. -/
def findFile (vn : ℕ) (s : State) : List (Fin MAX_GLOBAL_TABLE_SIZE) → Except Stop (Option ℕ)
  | [] => .ok none
  | i::is =>
    match s.table.files i with
    | none => findFile vn s is
    | some file =>
      match s.files.get file with
      | none => .error .useAfterFree
      | some f => if f.node = some vn then .ok (some file) else findFile vn s is

def insertFile (file : ℕ) (t : GlobalFileTable) : GlobalFileTable :=
  match firstFree t.files with
  | some i => ⟨update t.files i (some file), t.numOpenFiles+1⟩
  | none => ⟨t.files, t.numOpenFiles+1⟩

/-- The critical section of `global_table_open_file`, after `vfs_open` has
returned `vn` with a reference. -/
def globalTableOpenFile (vn : ℕ) (mem : Bool) (s : State) : Except Stop (Except Errno ℕ × State) :=
  if s.table.numOpenFiles = MAX_GLOBAL_TABLE_SIZE then .ok (.error .enfile, s)
  else match findFile vn s (List.finRange _) with
    | .error e => .error e
    | .ok (some file) => .ok (.ok file, s)
    | .ok none =>
      if !mem then .ok (.error .enospc, s)
      else
        let (f, s') := fileCreate (some vn) false s
        .ok (.ok f, { s' with table := insertFile f s'.table })

/-- The user string as `copyinstr` reads it; `none` is the null pointer. -/
abbrev UserString := Option (Except Errno String)

def sysOpen (fs : FileSystems) (p : ℕ) (filename : UserString) (flags : ℕ) (fileMem descMem : Bool)
    (s : State) : Except Stop (Except Errno (Fin MAX_LOCAL_TABLE_SIZE) × State) :=
  match filename with
  | none => .ok (.error .efault, s)
  | some (.error e) => .ok (.error e, s)
  | some (.ok path) =>
    match vfsOpen fs path flags s.refcount with
    | .error e => .error e
    | .ok (.error e, c) => .ok (.error e, { s with refcount := c })
    | .ok (.ok vn, c) =>
      match globalTableOpenFile vn fileMem { s with refcount := c } with
      | .error e => .error e
      | .ok (.error e, s') => .ok (.error e, s')
      | .ok (.ok file, s') =>
        match localTableAddFile p file flags descMem s' with
        | (.ok i, s'') => .ok (.ok i, s'')
        | (.error e, s'') =>
          match fileDestroy file s'' with
          | .error stop => .error stop
          | .ok (_, s3) => .ok (.error e, s3)

def sysClose (p : ℕ) (fd : ℤ) (s : State) : Except Stop (Option Errno × State) :=
  if fd < 0 ∨ fd ≥ MAX_LOCAL_TABLE_SIZE then .ok (some .ebadf, s)
  else localTableCloseFile p fd s

/-- The returned number is the new value of `*retval`. -/
def sysDup2 (p : ℕ) (oldfd newfd : ℤ) (s : State) : Except Stop (Option Errno × ℤ × State) :=
  if h : oldfd ≥ MAX_LOCAL_TABLE_SIZE ∨ oldfd < 0 ∨ newfd ≥ MAX_LOCAL_TABLE_SIZE ∨ newfd < 0 then
    .ok (some .ebadf, -1, s)
  else
    match localTableDup2 p ⟨oldfd.toNat, by omega⟩ ⟨newfd.toNat, by omega⟩ s with
    | .error e => .error e
    | .ok (some err, s') => .ok (some err, -1, s')
    | .ok (none, s') => .ok (none, newfd, s')

end OS161.FileTable
