import OS161.Runs
import OS161.Serial
import OS161.Vfs
import Mathlib.Data.Int.Basic

/-!
# Reads, writes and seeks through one descriptor

Any number of threads share a descriptor that is not one of the standard ones.
Every call takes the lock of the descriptor; a read or a write takes the lock
of the file as well, around the transfer and the update of the position.
Between two operations on locks a thread runs on its own. The operations of the
vnode are supplied: they see and change the file and the callers' memory, which
together are the `world`.
-/

set_option autoImplicit false

namespace OS161.SharedDescriptor

open Function OS161.Vfs

inductive Rw where
  | read
  | write
  deriving DecidableEq

inductive Seg where
  | userspace
  | sysspace
  deriving DecidableEq

structure Uio where
  base : ℕ
  offset : Int64
  resid : UInt32
  segflg : Seg
  rw : Rw
  space : Option ℕ

/-- `VOP_READ` and `VOP_WRITE` leave in `uio_resid` what was not transferred. -/
structure Vnode (ω : Type) where
  read : Uio → ω → Except Errno UInt32 × ω
  write : Uio → ω → Except Errno UInt32 × ω
  isSeekable : ω → Bool
  stat : ω → Except Errno Int64 × ω

structure Desc (ω : Type) where
  flags : ℕ
  seekLocation : Int64
  world : ω

inductive Call where
  | read (buf : ℕ) (size : UInt32)
  | write (buf : ℕ) (size : UInt32)
  | lseek (pos : Int64) (whence : ℤ)
  deriving DecidableEq

inductive Value where
  | count (n : UInt32)
  | position (p : Int64)
  deriving DecidableEq

/-- What a call returns, and the bytes it has transferred if it succeeds: the
offset the vnode was given, and their number. -/
structure Answer where
  result : Except Errno Value
  range : Option (Int64 × UInt32)
  deriving DecidableEq

structure Transfer where
  rw : Rw
  buf : ℕ
  size : UInt32
  deriving DecidableEq

def SEEK_SET : ℤ := 0
def SEEK_CUR : ℤ := 1
def SEEK_END : ℤ := 2

section Calls

-- `space` gives each thread's address space
variable {ω : Type} (v : Vnode ω) (space : ℕ → ℕ)

def uioKinit (kbuf : ℕ) (len : UInt32) (pos : Int64) (rw : Rw) : Uio :=
  { base := kbuf, offset := pos, resid := len, segflg := .sysspace, rw := rw, space := none }

def userUio (t : ℕ) (x : Transfer) (d : Desc ω) : Uio :=
  { uioKinit x.buf x.size d.seekLocation x.rw with segflg := .userspace, space := some (space t) }

/-- `VOP_READ` or `VOP_WRITE` on the caller's buffer. -/
def vopIo (t : ℕ) (x : Transfer) (d : Desc ω) : Except Errno UInt32 × ω :=
  match x.rw with
  | .read => v.read (userUio space t x d) d.world
  | .write => v.write (userUio space t x d) d.world

/-- The part of a read or a write under both locks. -/
def moveData (t : ℕ) (x : Transfer) (d : Desc ω) : Answer × Desc ω :=
  match vopIo v space t x d with
  | (.error e, w) => (⟨.error e, none⟩, { d with world := w })
  | (.ok resid, w) =>
    let bytesCopied := x.size - resid
    (⟨.ok (.count bytesCopied), some ((userUio space t x d).offset, bytesCopied)⟩,
      { d with seekLocation := d.seekLocation + bytesCopied.toUInt64.toInt64, world := w })

def readFromDisk (t buf : ℕ) (size : UInt32) (d : Desc ω) : Answer × Desc ω :=
  if d.flags = O_WRONLY then (⟨.error .ebadf, none⟩, d) else moveData v space t ⟨.read, buf, size⟩ d

def writeToDisk (t buf : ℕ) (size : UInt32) (d : Desc ω) : Answer × Desc ω :=
  if d.flags = O_RDONLY then (⟨.error .ebadf, none⟩, d) else moveData v space t ⟨.write, buf, size⟩ d

def setPosition (newPos : Int64) (d : Desc ω) : Answer × Desc ω :=
  if newPos < 0 then (⟨.error .einval, none⟩, d)
  else (⟨.ok (.position newPos), none⟩, { d with seekLocation := newPos })

/-- `sys_lseek` under the lock of the descriptor. -/
def lseek (pos : Int64) (whence : ℤ) (d : Desc ω) : Answer × Desc ω :=
  if !v.isSeekable d.world then (⟨.error .espipe, none⟩, d)
  else if whence = SEEK_SET then setPosition pos d
  else if whence = SEEK_CUR then setPosition (d.seekLocation + pos) d
  else if whence = SEEK_END then
    match v.stat d.world with
    | (.error e, w) => (⟨.error e, none⟩, { d with world := w })
    | (.ok size, w) => setPosition (size + pos) { d with world := w }
  else (⟨.error .einval, none⟩, d)

/-- `sys_read` and `sys_write` refuse a null buffer before anything else. -/
def Call.null : Call → Bool
  | .read buf _ => buf = 0
  | .write buf _ => buf = 0
  | .lseek _ _ => false

def lockedCall (t : ℕ) (c : Call) (d : Desc ω) : Answer × Desc ω :=
  match c with
  | .read buf size => readFromDisk v space t buf size d
  | .write buf size => writeToDisk v space t buf size d
  | .lseek pos whence => lseek v pos whence d

/-- A whole call that no other call interrupts. -/
def sysCall (t : ℕ) (c : Call) (d : Desc ω) : Answer × Desc ω :=
  if c.null then (⟨.error .efault, none⟩, d) else lockedCall v space t c d

end Calls

/-- Where a thread is that holds the lock of the descriptor. -/
inductive Inside where
  | locked
  | wantFile (x : Transfer)
  | inFile (x : Transfer)
  | leaveFile (a : Answer)
  | leaving (a : Answer)
  deriving DecidableEq

inductive Pc where
  | idle
  | calling (c : Call)
  | inside (c : Call) (i : Inside)
  deriving DecidableEq

/-- A finished call, and the position it left. -/
structure Entry where
  thread : ℕ
  call : Call
  answer : Answer
  left : Int64
  deriving DecidableEq

/-- `order`, `log` and `refused` only record the past: who took the lock of the
descriptor, which calls are over, and which were refused before they took it. -/
structure State (ω : Type) where
  desc : Desc ω
  lk : Option ℕ
  fileLk : Option ℕ
  pc : ℕ → Pc
  order : List (ℕ × Call)
  log : List Entry
  refused : List (ℕ × Call × Answer)

inductive Action where
  | invoke (t : ℕ) (c : Call)
  | acquire (t : ℕ)
  | check (t : ℕ)
  | acquireFile (t : ℕ)
  | transfer (t : ℕ)
  | releaseFile (t : ℕ)
  | release (t : ℕ)

def Action.thread : Action → ℕ
  | .invoke t _ => t
  | .acquire t => t
  | .check t => t
  | .acquireFile t => t
  | .transfer t => t
  | .releaseFile t => t
  | .release t => t

section Steps

variable {ω : Type} (v : Vnode ω) (space : ℕ → ℕ)

/-- What a call does between taking the lock of the descriptor and its next
operation on a lock. -/
def checked (c : Call) (d : Desc ω) : Inside × Desc ω :=
  match c with
  | .read buf size =>
    if d.flags = O_WRONLY then (.leaving ⟨.error .ebadf, none⟩, d) else (.wantFile ⟨.read, buf, size⟩, d)
  | .write buf size =>
    if d.flags = O_RDONLY then (.leaving ⟨.error .ebadf, none⟩, d) else (.wantFile ⟨.write, buf, size⟩, d)
  | .lseek pos whence =>
    let (a, d') := lseek v pos whence d
    (.leaving a, d')

def step (a : Action) (s : State ω) : Except Stop (State ω) :=
  match a with
  | .invoke t c =>
    match s.pc t with
    | .idle =>
      .ok (if c.null then { s with refused := s.refused ++ [(t, c, ⟨.error .efault, none⟩)] }
        else { s with pc := update s.pc t (.calling c) })
    | _ => .error .blocked
  | .acquire t =>
    match s.pc t, s.lk with
    | .calling c, none =>
      .ok { s with
        lk := some t
        pc := update s.pc t (.inside c .locked)
        order := s.order ++ [(t, c)] }
    | _, _ => .error .blocked
  | .check t =>
    match s.pc t with
    | .inside c .locked =>
      let (i, d) := checked v c s.desc
      .ok { s with desc := d, pc := update s.pc t (.inside c i) }
    | _ => .error .blocked
  | .acquireFile t =>
    match s.pc t, s.fileLk with
    | .inside c (.wantFile x), none =>
      .ok { s with fileLk := some t, pc := update s.pc t (.inside c (.inFile x)) }
    | _, _ => .error .blocked
  | .transfer t =>
    match s.pc t with
    | .inside c (.inFile x) =>
      let (a, d) := moveData v space t x s.desc
      .ok { s with desc := d, pc := update s.pc t (.inside c (.leaveFile a)) }
    | _ => .error .blocked
  | .releaseFile t =>
    match s.pc t with
    | .inside c (.leaveFile a) =>
      if s.fileLk = some t then .ok { s with fileLk := none, pc := update s.pc t (.inside c (.leaving a)) }
      else .error .panic
    | _ => .error .blocked
  | .release t =>
    match s.pc t with
    | .inside c (.leaving a) =>
      if s.lk = some t then
        .ok { s with
          lk := none
          pc := update s.pc t .idle
          log := s.log ++ [⟨t, c, a, s.desc.seekLocation⟩] }
      else .error .panic
    | _ => .error .blocked

abbrev run : List Action → State ω → Except Stop (State ω) := Runs.run (step v space)

/-- The descriptor is open and no one is using it. -/
def opened (d : Desc ω) : State ω where
  desc := d
  lk := none
  fileLk := none
  pc := fun _ => .idle
  order := []
  log := []
  refused := []

end Steps

end OS161.SharedDescriptor
