import OS161.Runs
import OS161.SfsSync

/-!
# Threads on a mounted volume

Threads call the operations of a volume, and take and give back references to its
vnodes. What an operation does under `vfs_biglock` is one step: nobody else then
touches what it reads. The counts of the vnodes do not need this lock, and between
the decision to reclaim a vnode and the call of `sfs_reclaim` other threads may go on.
The lock itself is taken and released in one step.
-/

set_option autoImplicit false

namespace OS161.SfsThreads

open Function OS161.Vfs OS161.CopyInOut OS161.Sfs OS161.SfsIo OS161.SfsDir OS161.SfsVolume OS161.References OS161.Runs
open OS161.SharedDescriptor (Rw)
open OS161.Sfsck (SFS_ROOTDIR_INO SFS_TYPE_FILE SFS_TYPE_DIR Dinode)

/-- The operations on a vnode, with `sfs_getroot` and `sfs_sync`. `transfer` is a read or a write,
with the memory of the process. -/
inductive Call where
  | getroot
  | creat (v : ℕ) (name : Name) (excl : Bool)
  | link (v : ℕ) (name : Name) (f : ℕ)
  | remove (v : ℕ) (name : Name)
  | rename (v : ℕ) (n₁ n₂ : Name)
  | lookup (v : ℕ) (path : Name)
  | lookparent (v : ℕ) (path : Name) (buflen : ℕ)
  | transfer (v : ℕ) (u : Uio) (m : UserMemory)
  | truncate (v len : ℕ)
  | fsync (v : ℕ)
  | sync

/-- The vnode whose operation is called. -/
def Call.target : Call → Option ℕ
  | .getroot | .sync => none
  | .creat v _ _ | .link v _ _ | .remove v _ | .rename v _ _ | .lookup v _ | .lookparent v _ _ => some v
  | .transfer v _ _ | .truncate v _ | .fsync v => some v

/-- The other vnode that the caller passes. -/
def Call.second : Call → Option ℕ
  | .link _ _ f => some f
  | _ => none

/-- The tables `sfs_fileops` and `sfs_dirops`: what fails at once, by the type of the vnode. -/
def Call.refusal (c : Call) (type : ℕ) : Option Errno :=
  match c with
  | .creat .. | .link .. | .remove .. | .rename .. | .lookup .. | .lookparent .. =>
    if type = SFS_TYPE_DIR then none else some .enotdir
  | .transfer .. | .truncate .. => if type = SFS_TYPE_DIR then some .eisdir else none
  | .getroot | .fsync _ | .sync => none

/-- What a call does once it has the lock. -/
def Call.body (c : Call) (mem : Memory) (s : Volume) : Body :=
  match c with
  | .getroot => sfsGetroot mem s
  | .creat v name excl => sfsCreat v name excl mem s
  | .link v name f => sfsLink v name f s
  | .remove v name => sfsRemove v name mem s
  | .rename v n₁ n₂ => sfsRename v n₁ n₂ mem s
  | .lookup v path => sfsLookup v path mem s
  | .lookparent v path buflen => sfsLookparent v path buflen s
  | .transfer v u m => SfsVolume.sfsRw v u m s
  | .truncate v len =>
    match sfsTruncate v len s with
    | .error stop => .error stop
    | .ok s => returns (.ok none) s
  | .fsync v =>
    match sfsSyncInode v s with
    | .error stop => .error stop
    | .ok s => returns (.ok none) s
  | .sync =>
    match sfsSync s with
    | .error stop => .error stop
    | .ok s => returns (.ok none) s

/-- Where a thread is. From `reclaiming` to `erasing` it is giving back the last
reference to a vnode, for itself or at the end of the operation that returns `back`. -/
inductive Place where
  | idle (r : Result)
  | entering (c : Call)
  | working (c : Call)
  | dropping (v : ℕ) (r : Result)
  | reclaiming (v : ℕ) (back : Option Result)
  | checking (v : ℕ) (back : Option Result)
  | erasing (v : ℕ) (back : Option Result)
  | leaving (r : Result)

variable {T : Type}

/-- `held` counts the references that callers keep. A thread in a call has at most
two in its hands: to the vnode that it has called, and another one. -/
structure State (T : Type) where
  vol : Volume
  holder : Option T
  depth : ℕ
  held : ℕ → ℕ
  hand : T × Bool → Option ℕ
  place : T → Place

/-- Callers may also have `vfs_biglock` themselves, around several operations. -/
inductive Action where
  | call (c : Call)
  | incref (v : ℕ)
  | decref (v : ℕ)
  | acquire
  | release
  | advance (mem : Memory)

variable [DecidableEq T]

def State.goto (t : T) (x : Place) (s : State T) : State T := { s with place := update s.place t x }

/-- A reference of the callers is used by the thread. -/
def State.grab (x : T × Bool) (v : ℕ) (s : State T) : State T :=
  { s with held := update s.held v (s.held v - 1), hand := update s.hand x (some v) }

/-- What is in a hand is the callers'. -/
def State.give (x : T × Bool) (s : State T) : State T :=
  match s.hand x with
  | none => s
  | some v => { s with held := update s.held v (s.held v + 1), hand := update s.hand x none }

def State.setVol (vol : Volume) (s : State T) : State T := { s with vol := vol }

/-- How often a thread has the lock. -/
def nest (s : State T) (t : T) : ℕ := if s.holder = some t then s.depth else 0

/-- `vfs_biglock_acquire`, which waits while somebody else has the lock. -/
def acquire (t : T) (s : State T) : Except Stop (State T) :=
  match s.holder with
  | none => .ok { s with holder := some t, depth := 1 }
  | some u => if u = t then .ok { s with depth := s.depth + 1 } else .error .blocked

def release (t : T) (s : State T) : Except Stop (State T) :=
  if s.holder ≠ some t ∨ s.depth = 0 then .error .panic
  else if s.depth = 1 then .ok { s with holder := none, depth := 0 }
  else .ok { s with depth := s.depth - 1 }

/-- The part of `vnode_check` that concerns the count. -/
def vnodeCheck (v : ℕ) (s : Volume) : Except Stop Unit :=
  if (s.vnode v).live = false then .error .useAfterFree
  else if (s.vnode v).refcount = 0 then .error .panic
  else .ok ()

def recount (v n : ℕ) (s : Volume) : Volume := { s with vnode := update s.vnode v { s.vnode v with refcount := n } }

/-- Whether the caller is to reclaim the vnode. -/
def vnodeDecref (v : ℕ) (s : Volume) : Except Stop (Bool × Volume) :=
  match vnodeCheck v s with
  | .error stop => .error stop
  | .ok () =>
    if 1 < (s.vnode v).refcount then .ok (false, recount v ((s.vnode v).refcount - 1) s)
    else .ok (true, s)

/-- The caller of an operation has references to the vnodes that it passes. -/
def begin (t : T) (c : Call) (s : State T) : Except Stop (State T) :=
  match c.target with
  | none => .ok (s.goto t (.entering c))
  | some v =>
    if s.held v = 0 then .error .blocked
    else match vnodeCheck v s.vol with
      | .error stop => .error stop
      | .ok () =>
        match c.refusal (s.vol.core v).type with
        | some e => .ok (s.goto t (.idle (.error e)))
        | none =>
          let s := s.grab (t, false) v
          match c.second with
          | none => .ok (s.goto t (.entering c))
          | some f => if s.held f = 0 then .error .blocked else .ok ((s.grab (t, true) f).goto t (.entering c))

/-- The place after a vnode has been given back. -/
def resumed : Option Result → Place
  | none => .idle (.ok none)
  | some r => .leaving r

def resume (t : T) (back : Option Result) (s : State T) : State T := s.goto t (resumed back)

/-- The reference that the operation has taken is in the second hand. -/
def work (t : T) (o : Outcome) (vol : Volume) (s : State T) : State T :=
  { s with
    vol := vol
    hand := match o.vnode with
      | none => s.hand
      | some g => update s.hand (t, true) (some g) }.goto t
    (match o.drop with
      | none => .leaving o.result
      | some d => .dropping d o.result)

def advance (t : T) (mem : Memory) (s : State T) : Except Stop (State T) :=
  match s.place t with
  | .idle _ => .error .blocked
  | .entering c => (acquire t s).map (·.goto t (.working c))
  | .working c =>
    match c.body mem s.vol with
    | .error stop => .error stop
    | .ok (o, vol) => .ok (work t o vol s)
  | .dropping d r =>
    match vnodeDecref d s.vol with
    | .error stop => .error stop
    | .ok (true, _) => .ok (s.goto t (.reclaiming d (some r)))
    | .ok (false, vol) => .ok (({ s with hand := update s.hand (t, true) none }.setVol vol).goto t (.leaving r))
  | .reclaiming d back =>
    match vnodeCheck d s.vol with
    | .error stop => .error stop
    | .ok () => (acquire t s).map (·.goto t (.checking d back))
  | .checking d back =>
    if (s.vol.vnode d).live = false then .error .useAfterFree
    else if (s.vol.vnode d).refcount = 1 then .ok (s.goto t (.erasing d back))
    else if (s.vol.vnode d).refcount = 0 then .error .panic
    else (release t ({ s with hand := update s.hand (t, true) none }.setVol
      (recount d ((s.vol.vnode d).refcount - 1) s.vol))).map (resume t back)
  | .erasing d back =>
    match sfsErase d s.vol with
    | .error stop => .error stop
    | .ok vol => (release t ({ s with hand := update s.hand (t, true) none }.setVol vol)).map (resume t back)
  | .leaving r => (release t s).map fun s => ((s.give (t, false)).give (t, true)).goto t (.idle r)

/-- `vnode_incref` by a caller that has a reference. -/
def callerIncref (v : ℕ) (s : State T) : Except Stop (State T) :=
  if s.held v = 0 then .error .blocked
  else .ok { s with vol := vopIncref v s.vol, held := update s.held v (s.held v + 1) }

/-- `vnode_decref` by a caller that has a reference. -/
def callerDecref (t : T) (v : ℕ) (s : State T) : Except Stop (State T) :=
  if s.held v = 0 then .error .blocked
  else match vnodeDecref v s.vol with
    | .error stop => .error stop
    | .ok (true, _) => .ok ((s.grab (t, true) v).goto t (.reclaiming v none))
    | .ok (false, vol) => .ok { s with vol := vol, held := update s.held v (s.held v - 1) }

/-- Only an idle thread starts something. -/
def whenIdle (t : T) (s : State T) (next : Except Stop (State T)) : Except Stop (State T) :=
  match s.place t with
  | .idle _ => next
  | _ => .error .blocked

/-- A caller releases only what it has acquired. -/
def step (a : T × Action) (s : State T) : Except Stop (State T) :=
  match a.2 with
  | .advance mem => advance a.1 mem s
  | .call c => whenIdle a.1 s (begin a.1 c s)
  | .incref v => whenIdle a.1 s (callerIncref v s)
  | .decref v => whenIdle a.1 s (callerDecref a.1 v s)
  | .acquire => whenIdle a.1 s (acquire a.1 s)
  | .release => whenIdle a.1 s (if nest s a.1 = 0 then .error .blocked else release a.1 s)

abbrev runs : List (T × Action) → State T → Except Stop (State T) := run step

/-- A volume that has just been mounted. -/
def mounted (vol : Volume) : State T where
  vol := vol
  holder := none
  depth := 0
  held _ := 0
  hand _ := none
  place _ := .idle (.ok none)

end OS161.SfsThreads
