import OS161.References
import OS161.Runs
import OS161.Vfs

/-!
# Directory, table and vnodes of the semaphore file system

Threads create, look up and remove semaphores and give back their vnodes. A step
is one operation on `semfs_dirlock`, `semfs_tablelock` or a `sems_lock`, with
what follows it up to the next one; `vnode_incref` and `vnode_decref` are steps
of their own. Threads that read or write a semaphore, or wait in it, take part
with their locks only. Whether memory is left is an input. A null pointer stops
the kernel where it is read.
-/

set_option autoImplicit false

namespace OS161.SemDirectory

open Function OS161.Vfs

def SEMFS_ROOTDIR : ℕ := 0xffffffff

abbrev Name := List UInt8

def dots (name : Name) : Bool := name == [46] || name == [46, 46]

structure Direntry where
  name : Name
  semnum : ℕ
  deriving DecidableEq

/-- A semaphore without its count. What has been freed keeps its flags. -/
structure Sem (T : Type) where
  live : Bool
  lock : Option T
  hasvnode : Bool
  linked : Bool

/-- Its number is `semv_semnum`. -/
abbrev Vnode := References.Counted

/-- What a function returns: an error, or the vnode it stores, if any. -/
abbrev Result := Except Errno (Option ℕ)

/-- Who has called `semfs_getvnode`. `semfs_creat` has entered semaphore `o` at
position `i`; where it only looks a name up, it goes on like `semfs_lookup`. -/
inductive Caller where
  | getroot
  | lookup
  | creat (i o : ℕ)
  deriving DecidableEq

/-- The lock operation that a thread makes next. `o` is a semaphore, `k` its
number, `i` the position of its directory entry, `v` a vnode. -/
inductive Place where
  | idle (r : Result)
  | creatDir (name : Name) (excl : Bool)
  | creatInsert (name : Name) (empty : Option ℕ) (o : ℕ)
  | creatInserted (name : Name) (empty : Option ℕ) (o : ℕ) (r : Except Errno ℕ)
  | getvnode (k : ℕ) (c : Caller)
  | gotvnode (k : ℕ) (c : Caller) (r : Except Errno ℕ)
  | creatUninsert (k o : ℕ) (r : Result)
  | creatUninserted (o : ℕ) (r : Result)
  | lookupDir (name : Name)
  | unlockDir (r : Result)
  | removeDir (name : Name)
  | removeGet (i k : ℕ)
  | removeGot (i k o : ℕ)
  | removeLock (i k o : ℕ)
  | removeTable (i k o : ℕ)
  | removeTabled (i k o : ℕ)
  | removeUnlock (i k o : ℕ) (destroy : Bool)
  | reclaim (v : ℕ)
  | reclaimBusy
  | reclaimed (v : ℕ)
  | useGet (v : ℕ)
  | useGot (v o : ℕ)
  | useLock (v o : ℕ)
  | useUnlock (v o : ℕ)

/-- `dents` and `sems` are the arrays `semfs_dents` and `semfs_sems` with their
sizes, `vnodes` is `semfs_vnodes`; `held` counts the references that the callers
of the file system have. -/
structure State (T : Type) where
  dirlock : Option T
  tablelock : Option T
  dents : ℕ → Option Direntry
  numDents : ℕ
  sems : ℕ → Option ℕ
  numSems : ℕ
  vnodes : List ℕ
  sem : ℕ → Sem T
  nextSem : ℕ
  vnode : ℕ → Vnode
  nextVnode : ℕ
  held : ℕ → ℕ
  place : T → Place

variable {T : Type} [DecidableEq T]

def State.goto (s : State T) (t : T) (x : Place) : State T := { s with place := update s.place t x }

def State.setSem (s : State T) (o : ℕ) (m : Sem T) : State T := { s with sem := update s.sem o m }

def State.setVnode (s : State T) (v : ℕ) (n : Vnode) : State T := { s with vnode := update s.vnode v n }

/-- `lock_acquire`, which waits while somebody else has the lock, and what
follows it. -/
def acquire (t : T) (lock : Option T) (next : Except Stop (State T)) : Except Stop (State T) :=
  if lock = some t then .error .panic
  else if lock = none then next
  else .error .blocked

/-- `lock_release`, and what follows it. -/
def release (t : T) (lock : Option T) (next : Except Stop (State T)) : Except Stop (State T) :=
  if lock = some t then next else .error .panic

def acquireSem (t : T) (o : ℕ) (s : State T) (next : Except Stop (State T)) : Except Stop (State T) :=
  if (s.sem o).live then acquire t (s.sem o).lock next else .error .useAfterFree

def releaseSem (t : T) (o : ℕ) (s : State T) (next : Except Stop (State T)) : Except Stop (State T) :=
  if (s.sem o).live then release t (s.sem o).lock next else .error .useAfterFree

/-- Which allocations succeed in a step: of a semaphore, in `semfs_sems`, of a
directory entry, in `semfs_dents`, and of a vnode and in `semfs_vnodes`. -/
structure Memory where
  sem : Bool
  table : Bool
  dirent : Bool
  dirents : Bool
  vnode : Bool

def semfsSemCreate (s : State T) : ℕ × State T :=
  (s.nextSem, { s with sem := update s.sem s.nextSem ⟨true, none, false, false⟩, nextSem := s.nextSem+1 })

/-- `lock_destroy` asserts that the lock is available. -/
def semfsSemDestroy (o : ℕ) (s : State T) : Except Stop (State T) :=
  if (s.sem o).live = false then .error .useAfterFree
  else if (s.sem o).lock ≠ none then .error .panic
  else .ok (s.setSem o { s.sem o with live := false })

def semfsSemInsert (o : ℕ) (mem : Memory) (s : State T) : Except Errno ℕ × State T :=
  if s.numSems = SEMFS_ROOTDIR then (.error .enospc, s)
  else match (List.range s.numSems).find? (fun k => (s.sems k).isNone) with
    | some k => (.ok k, { s with sems := update s.sems k (some o) })
    | none =>
      if mem.table then
        (.ok s.numSems, { s with sems := update s.sems s.numSems (some o), numSems := s.numSems+1 })
      else (.error .enomem, s)

def semarrayGet (k : ℕ) (s : State T) : Except Stop ℕ :=
  if s.numSems ≤ k then .error .outOfBounds
  else match s.sems k with
    | none => .error .panic
    | some o => if (s.sem o).live then .ok o else .error .useAfterFree

/-- The position and the number of the first entry with the name. -/
def search (name : Name) (s : State T) : Option (ℕ × ℕ) :=
  (List.range s.numDents).findSome? (fun i => match s.dents i with
    | some d => if d.name = name then some (i, d.semnum) else none
    | none => none)

def firstEmpty (s : State T) : Option ℕ := (List.range s.numDents).find? (fun i => (s.dents i).isNone)

/-! One definition for each lock operation. -/

def creatDir (t : T) (name : Name) (excl : Bool) (mem : Memory) (s : State T) : Except Stop (State T) :=
  acquire t s.dirlock <|
    let s := { s with dirlock := some t }
    match search name s with
    | some (_, k) => .ok (s.goto t (if excl then .unlockDir (.error .eexist) else .getvnode k .lookup))
    | none =>
      if mem.sem then
        let (o, s') := semfsSemCreate s
        .ok (s'.goto t (.creatInsert name (firstEmpty s) o))
      else .ok (s.goto t (.unlockDir (.error .enomem)))

def creatInsert (t : T) (name : Name) (empty : Option ℕ) (o : ℕ) (mem : Memory) (s : State T) :
    Except Stop (State T) :=
  acquire t s.tablelock <|
    let (r, s) := semfsSemInsert o mem { s with tablelock := some t }
    .ok (s.goto t (.creatInserted name empty o r))

/-- After a failed `semfs_direntry_create` the result is still the one of the
insertion. -/
def creatInserted (t : T) (name : Name) (empty : Option ℕ) (o : ℕ) (r : Except Errno ℕ) (mem : Memory)
    (s : State T) : Except Stop (State T) :=
  release t s.tablelock <|
    let s := { s with tablelock := none }
    match r with
    | .error e => match semfsSemDestroy o s with
      | .error stop => .error stop
      | .ok s => .ok (s.goto t (.unlockDir (.error e)))
    | .ok k =>
      if mem.dirent then match empty with
        | some i => .ok ({ s with dents := update s.dents i (some ⟨name, k⟩) }.goto t (.getvnode k (.creat i o)))
        | none =>
          if mem.dirents then
            .ok ({ s with
              dents := update s.dents s.numDents (some ⟨name, k⟩)
              numDents := s.numDents+1 }.goto t (.getvnode k (.creat s.numDents o)))
          else .ok (s.goto t (.creatUninsert k o (.error .enomem)))
      else .ok (s.goto t (.creatUninsert k o (.ok none)))

def vnodeIncref (v : ℕ) (s : State T) : Except Stop (State T) :=
  if (s.vnode v).live then .ok (s.setVnode v { s.vnode v with refcount := (s.vnode v).refcount+1 })
  else .error .useAfterFree

def semfsVnodeCreate (k : ℕ) (s : State T) : ℕ × State T :=
  (s.nextVnode, { s with
    vnode := update s.vnode s.nextVnode ⟨true, k, 1⟩
    nextVnode := s.nextVnode+1
    vnodes := s.vnodes ++ [s.nextVnode] })

def getvnode (t : T) (k : ℕ) (c : Caller) (mem : Memory) (s : State T) : Except Stop (State T) :=
  acquire t s.tablelock <|
    let s := { s with tablelock := some t }
    match s.vnodes.find? (fun v => (s.vnode v).number = k) with
    | some v => match vnodeIncref v s with
      | .error stop => .error stop
      | .ok s => .ok (s.goto t (.gotvnode k c (.ok v)))
    | none =>
      if mem.vnode then
        let (v, s) := semfsVnodeCreate k s
        if k = SEMFS_ROOTDIR then .ok (s.goto t (.gotvnode k c (.ok v)))
        else match semarrayGet k s with
          | .error stop => .error stop
          | .ok o =>
            if (s.sem o).hasvnode then .error .panic
            else .ok ((s.setSem o { s.sem o with hasvnode := true }).goto t (.gotvnode k c (.ok v)))
      else .ok (s.goto t (.gotvnode k c (.error .enomem)))

def gotvnode (t : T) (k : ℕ) (c : Caller) (r : Except Errno ℕ) (s : State T) : Except Stop (State T) :=
  release t s.tablelock <|
    let s := { s with tablelock := none }
    match c, r with
    | .getroot, .ok v => .ok ({ s with held := update s.held v (s.held v+1) }.goto t (.idle (.ok (some v))))
    | .getroot, .error e => .ok (s.goto t (.idle (.error e)))
    | .lookup, r => .ok (s.goto t (.unlockDir (r.map some)))
    | .creat _ o, .ok v =>
      if (s.sem o).live then
        .ok ((s.setSem o { s.sem o with linked := true }).goto t (.unlockDir (.ok (some v))))
      else .error .useAfterFree
    | .creat i o, .error e =>
      .ok ({ s with dents := update s.dents i none }.goto t (.creatUninsert k o (.error e)))

def creatUninsert (t : T) (k o : ℕ) (r : Result) (s : State T) : Except Stop (State T) :=
  acquire t s.tablelock <|
    .ok ({ s with tablelock := some t, sems := update s.sems k none }.goto t (.creatUninserted o r))

def creatUninserted (t : T) (o : ℕ) (r : Result) (s : State T) : Except Stop (State T) :=
  release t s.tablelock <| match semfsSemDestroy o { s with tablelock := none } with
    | .error stop => .error stop
    | .ok s => .ok (s.goto t (.unlockDir r))

def lookupDir (t : T) (name : Name) (s : State T) : Except Stop (State T) :=
  acquire t s.dirlock <|
    let s := { s with dirlock := some t }
    match search name s with
    | some (_, k) => .ok (s.goto t (.getvnode k .lookup))
    | none => .ok (s.goto t (.unlockDir (.error .enoent)))

/-- The reference goes to the caller. -/
def returned (r : Result) (s : State T) : State T :=
  match r with
  | .ok (some v) => { s with held := update s.held v (s.held v+1) }
  | _ => s

def unlockDir (t : T) (r : Result) (s : State T) : Except Stop (State T) :=
  release t s.dirlock <| .ok ((returned r { s with dirlock := none }).goto t (.idle r))

def removeDir (t : T) (name : Name) (s : State T) : Except Stop (State T) :=
  acquire t s.dirlock <|
    let s := { s with dirlock := some t }
    match search name s with
    | some (i, k) => .ok (s.goto t (.removeGet i k))
    | none => .ok (s.goto t (.unlockDir (.error .enoent)))

def removeGet (t : T) (i k : ℕ) (s : State T) : Except Stop (State T) :=
  acquire t s.tablelock <| match semarrayGet k s with
    | .error stop => .error stop
    | .ok o => .ok ({ s with tablelock := some t }.goto t (.removeGot i k o))

def removeLock (t : T) (i k o : ℕ) (s : State T) : Except Stop (State T) :=
  acquireSem t o s <|
    if (s.sem o).linked then
      .ok ((s.setSem o { s.sem o with lock := some t, linked := false }).goto t
        (if (s.sem o).hasvnode then .removeUnlock i k o false else .removeTable i k o))
    else .error .panic

def removeTable (t : T) (i k o : ℕ) (s : State T) : Except Stop (State T) :=
  acquire t s.tablelock <|
    .ok ({ s with tablelock := some t, sems := update s.sems k none }.goto t (.removeTabled i k o))

def removeUnlock (t : T) (i o : ℕ) (destroy : Bool) (s : State T) : Except Stop (State T) :=
  releaseSem t o s <|
    let s := s.setSem o { s.sem o with lock := none }
    match if destroy then semfsSemDestroy o s else .ok s with
    | .error stop => .error stop
    | .ok s => .ok ({ s with dents := update s.dents i none }.goto t (.unlockDir (.ok none)))

/-- A semaphore that is unlinked goes away with its vnode. -/
def dropSem (k : ℕ) (s : State T) : Except Stop (State T) :=
  match semarrayGet k s with
  | .error stop => .error stop
  | .ok o =>
    if (s.sem o).hasvnode = false then .error .panic
    else
      let s := s.setSem o { s.sem o with hasvnode := false }
      if (s.sem o).linked then .ok s else semfsSemDestroy o { s with sems := update s.sems k none }

def semfsReclaim (t : T) (v : ℕ) (s : State T) : Except Stop (State T) :=
  acquire t s.tablelock <|
    let s := { s with tablelock := some t }
    if (s.vnode v).live = false then .error .useAfterFree
    else if 1 < (s.vnode v).refcount then
      .ok ((s.setVnode v { s.vnode v with refcount := (s.vnode v).refcount-1 }).goto t .reclaimBusy)
    else
      let s := { s with vnodes := s.vnodes.erase v }
      match if (s.vnode v).number = SEMFS_ROOTDIR then .ok s else dropSem (s.vnode v).number s with
      | .error stop => .error stop
      | .ok s => .ok (s.goto t (.reclaimed v))

/-- `vnode_cleanup` asserts that one reference is left. -/
def semfsVnodeDestroy (t : T) (v : ℕ) (s : State T) : Except Stop (State T) :=
  release t s.tablelock <|
    if (s.vnode v).live = false then .error .useAfterFree
    else if (s.vnode v).refcount ≠ 1 then .error .panic
    else .ok ({ s.setVnode v { s.vnode v with live := false } with tablelock := none }.goto t (.idle (.ok none)))

def useGet (t : T) (v : ℕ) (s : State T) : Except Stop (State T) :=
  acquire t s.tablelock <| match semarrayGet (s.vnode v).number s with
    | .error stop => .error stop
    | .ok o => .ok ({ s with tablelock := some t }.goto t (.useGot v o))

def useLock (t : T) (v o : ℕ) (s : State T) : Except Stop (State T) :=
  acquireSem t o s <| .ok ((s.setSem o { s.sem o with lock := some t }).goto t (.useUnlock v o))

/-- At the end of the operation, or to wait in `cv_wait` and come back. -/
def useUnlock (t : T) (v o : ℕ) (wait : Bool) (s : State T) : Except Stop (State T) :=
  releaseSem t o s <|
    let s := s.setSem o { s.sem o with lock := none }
    if wait then .ok (s.goto t (.useLock v o))
    else .ok ({ s with held := update s.held v (s.held v+1) }.goto t (.idle (.ok none)))

def unlockTable (t : T) (x : Place) (s : State T) : Except Stop (State T) :=
  release t s.tablelock <| .ok ({ s with tablelock := none }.goto t x)

def advance (t : T) (mem : Memory) (wait : Bool) (s : State T) : Except Stop (State T) :=
  match s.place t with
  | .idle _ => .error .blocked
  | .creatDir name excl => creatDir t name excl mem s
  | .creatInsert name empty o => creatInsert t name empty o mem s
  | .creatInserted name empty o r => creatInserted t name empty o r mem s
  | .getvnode k c => getvnode t k c mem s
  | .gotvnode k c r => gotvnode t k c r s
  | .creatUninsert k o r => creatUninsert t k o r s
  | .creatUninserted o r => creatUninserted t o r s
  | .lookupDir name => lookupDir t name s
  | .unlockDir r => unlockDir t r s
  | .removeDir name => removeDir t name s
  | .removeGet i k => removeGet t i k s
  | .removeGot i k o => unlockTable t (.removeLock i k o) s
  | .removeLock i k o => removeLock t i k o s
  | .removeTable i k o => removeTable t i k o s
  | .removeTabled i k o => unlockTable t (.removeUnlock i k o true) s
  | .removeUnlock i _ o destroy => removeUnlock t i o destroy s
  | .reclaim v => semfsReclaim t v s
  | .reclaimBusy => unlockTable t (.idle (.ok none)) s
  | .reclaimed v => semfsVnodeDestroy t v s
  | .useGet v => useGet t v s
  | .useGot v o => unlockTable t (.useLock v o) s
  | .useLock v o => useLock t v o s
  | .useUnlock v o => useUnlock t v o wait s

/-- What a thread can do next. -/
inductive Action where
  | getroot
  | creat (name : Name) (excl : Bool)
  | lookup (dirvn : ℕ) (path : Name)
  | remove (name : Name)
  | incref (v : ℕ)
  | decref (v : ℕ)
  | use (v : ℕ)
  | advance (mem : Memory) (wait : Bool)

/-- The callers of the file system use only references they have. -/
def withRef (v : ℕ) (s : State T) (next : Except Stop (State T)) : Except Stop (State T) :=
  if s.held v = 0 then .error .blocked else next

def vopIncref (v : ℕ) (s : State T) : Except Stop (State T) :=
  withRef v s <| match vnodeIncref v s with
    | .error stop => .error stop
    | .ok s => .ok { s with held := update s.held v (s.held v+1) }

/-- The last reference is passed to `VOP_RECLAIM`. -/
def vnodeDecref (t : T) (v : ℕ) (s : State T) : Except Stop (State T) :=
  withRef v s <|
    if (s.vnode v).live = false then .error .useAfterFree
    else
      let s := { s with held := update s.held v (s.held v-1) }
      if (s.vnode v).refcount = 0 then .error .panic
      else if 1 < (s.vnode v).refcount then
        .ok (s.setVnode v { s.vnode v with refcount := (s.vnode v).refcount-1 })
      else .ok (s.goto t (.reclaim v))

/-- The vnode operations of a semaphore. -/
def beginUse (t : T) (v : ℕ) (s : State T) : Except Stop (State T) :=
  withRef v s <|
    if (s.vnode v).number = SEMFS_ROOTDIR then .error .blocked
    else .ok ({ s with held := update s.held v (s.held v-1) }.goto t (.useGet v))

/-- The calls, up to their first lock operation. -/
def begin (t : T) (a : Action) (s : State T) : Except Stop (State T) :=
  match a with
  | .getroot => .ok (s.goto t (.getvnode SEMFS_ROOTDIR .getroot))
  | .creat name excl =>
    .ok (s.goto t (if dots name then .idle (.error .eexist) else .creatDir name excl))
  | .lookup dirvn path => if dots path then vopIncref dirvn s else .ok (s.goto t (.lookupDir path))
  | .remove name => .ok (s.goto t (if dots name then .idle (.error .einval) else .removeDir name))
  | .incref v => vopIncref v s
  | .decref v => vnodeDecref t v s
  | .use v => beginUse t v s
  | .advance _ _ => .error .blocked

def step (a : T × Action) (s : State T) : Except Stop (State T) :=
  match s.place a.1, a.2 with
  | _, .advance mem wait => advance a.1 mem wait s
  | .idle _, act => begin a.1 act s
  | _, _ => .error .blocked

/-- An empty file system, nothing loaded. -/
def initial : State T where
  dirlock := none
  tablelock := none
  dents _ := none
  numDents := 0
  sems _ := none
  numSems := 0
  vnodes := []
  sem _ := ⟨false, none, false, false⟩
  nextSem := 0
  vnode _ := ⟨false, 0, 0⟩
  nextVnode := 0
  held _ := 0
  place _ := .idle (.ok none)

end OS161.SemDirectory
