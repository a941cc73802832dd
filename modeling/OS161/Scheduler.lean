import Mathlib.Data.List.FinRange
import Mathlib.Logic.Function.Basic
import OS161.Runs
import OS161.Vfs

/-!
# The scheduler on several CPUs

Every CPU has a run queue with a spinlock, a list of zombies and a current
thread. `thread_switch` takes the lock, queues the current thread, and keeps the
lock until another thread runs; only an idle CPU lets go of it, and a CPU that
is idle still has the thread that went away as its current one. Interrupts stop
at neither kind of CPU, the running or the idle one: they wake threads and move
part of the run queue to other CPUs. A step is what happens under one
spinlock. The spinlocks of wait channels are left out, so wakeups interleave
with more than they do in the kernel; the interrupt that ends an idle spell may
come at any time.
-/

set_option autoImplicit false

namespace OS161.Scheduler

open Function OS161.Vfs

inductive ThreadState where
  | run
  | ready
  | sleep
  | zombie
  deriving DecidableEq

/-- Where a CPU is in `thread_switch`. `picking` is the head of its loop and
`switching t` what follows it; in `arriving` the next thread runs already. -/
inductive Mode where
  | running
  | picking
  | idling
  | switching (t : ℕ)
  | arriving
  | exorcising
  deriving DecidableEq

/-- The CPU holds the lock of its run queue between two steps. -/
def Mode.locked : Mode → Bool
  | .picking | .switching _ | .arriving => true
  | _ => false

/-- What a CPU does with interrupts off, besides switching: it makes threads
runnable, or is in one of the loops of `thread_consider_migration`. -/
inductive Hand (C : Type) where
  | none
  | waking (list : List ℕ)
  | counting (rest : List C) (totalCount myCount : ℕ)
  | taking (toSend oneShare : ℕ)
  | sending (rest : List C) (toSend oneShare : ℕ) (victims : List ℕ)
  | returning (victims : List ℕ)
  deriving DecidableEq

/-- The list in a local variable of the operation. -/
def Hand.list {C : Type} : Hand C → List ℕ
  | .waking list => list
  | .sending _ _ _ victims | .returning victims => victims
  | _ => []

/-- `forked u` is the thread that `u`, in `thread_fork`, has created and not
queued yet. A thread is `live` until `thread_destroy`; numbers from `next` on
have not been used. -/
structure State (C W : Type) where
  curthread : C → ℕ
  runqueue : C → List ℕ
  zombies : C → List ℕ
  mode : C → Mode
  hand : C → Hand C
  wchan : W → List ℕ
  tCpu : ℕ → Option C
  tState : ℕ → ThreadState
  forked : ℕ → Option ℕ
  live : ℕ → Bool
  next : ℕ

/-- `resume` is the next step of whatever the CPU is in the middle of. -/
inductive Action (W : Type) where
  | threadYield
  | wchanSleep (w : W)
  | threadExit
  | wchanWakeone (w : W)
  | wchanWakeall (w : W)
  | threadFork
  | forkFails
  | forkQueues
  | considerMigration
  | resume
  deriving DecidableEq

variable {C W : Type} [DecidableEq C] [DecidableEq W]

def State.enter (s : State C W) (c : C) (m : Mode) : State C W :=
  { s with mode := update s.mode c m }

def State.hold (s : State C W) (c : C) (h : Hand C) : State C W :=
  { s with hand := update s.hand c h }

def State.setRunqueue (s : State C W) (c : C) (ts : List ℕ) : State C W :=
  { s with runqueue := update s.runqueue c ts }

def State.setZombies (s : State C W) (c : C) (ts : List ℕ) : State C W :=
  { s with zombies := update s.zombies c ts }

def State.setWchan (s : State C W) (w : W) (ts : List ℕ) : State C W :=
  { s with wchan := update s.wchan w ts }

/-- `threadlist_addtail` on a run queue. -/
def State.enqueue (s : State C W) (c : C) (ts : List ℕ) : State C W :=
  s.setRunqueue c (s.runqueue c ++ ts)

def State.setState (s : State C W) (t : ℕ) (v : ThreadState) : State C W :=
  { s with tState := update s.tState t v }

/-- The CPU takes interrupts, or is in none of the operations below. -/
def State.ready (s : State C W) (c : C) : Bool :=
  (s.mode c = .running || s.mode c = .idling) && s.hand c = .none

/-- The current thread calls one of the operations outside `thread_fork`. -/
def State.calls (s : State C W) (c : C) : Bool :=
  s.mode c = .running && s.hand c = .none && s.forked (s.curthread c) = none

def threadDestroy (c : C) (t : ℕ) (s : State C W) : Except Stop (State C W) :=
  if t = s.curthread c then .error .panic
  else if s.tState t = .run then .error .panic
  else .ok { s with live := update s.live t false }

/-- The caller holds no run queue lock but that of its own CPU, if any. -/
def threadMakeRunnable (c : C) (target : ℕ) (alreadyHaveLock : Bool) (s : State C W) :
    Except Stop (State C W) :=
  match s.tCpu target with
  | none => .error .panic
  | some targetcpu =>
    if alreadyHaveLock then
      if targetcpu = c then .ok ((s.setState target .ready).enqueue targetcpu [target]) else .error .panic
    else if (s.mode targetcpu).locked then .error .blocked
    else .ok ((s.setState target .ready).enqueue targetcpu [target])

/-- `thread_switch` has queued the current thread. -/
def State.leave (s : State C W) (c : C) (newstate : ThreadState) : State C W :=
  (s.setState (s.curthread c) newstate).enter c .picking

/-- The part of `thread_switch` before its loop, for `S_READY`. A timer
interrupt may find the CPU in `cpu_idle`. -/
def threadYield (c : C) (s : State C W) : Except Stop (State C W) :=
  if !s.ready c then .error .blocked
  else if s.mode c = .idling then .ok s
  else if s.runqueue c = [] then .ok s
  else match threadMakeRunnable c (s.curthread c) true s with
    | .error e => .error e
    | .ok s' => .ok (s'.leave c .ready)

/-- The same for `S_SLEEP`. -/
def wchanSleep (c : C) (w : W) (s : State C W) : Except Stop (State C W) :=
  if !s.calls c then .error .blocked
  else .ok ((s.setWchan w (s.wchan w ++ [s.curthread c])).leave c .sleep)

/-- The same for `S_ZOMBIE`. -/
def threadExit (c : C) (s : State C W) : Except Stop (State C W) :=
  if !s.calls c then .error .blocked
  else .ok ((s.setZombies c (s.zombies c ++ [s.curthread c])).leave c .zombie)

/-- The head of the run queue, or else the CPU goes idle. -/
def pick (c : C) (s : State C W) : State C W :=
  match s.runqueue c with
  | [] => s.enter c .idling
  | t::ts => (s.setRunqueue c ts).enter c (.switching t)

def exorcise (c : C) (s : State C W) : Except Stop (State C W) :=
  match s.zombies c with
  | [] => .ok (s.enter c .running)
  | z::zs =>
    if z = s.curthread c then .error .panic
    else if s.tState z ≠ .zombie then .error .panic
    else threadDestroy c z (s.setZombies c zs)

def threadSwitch (c : C) (s : State C W) : Except Stop (State C W) :=
  match s.mode c with
  | .running => .error .blocked
  | .picking => .ok (pick c s)
  | .idling => .ok (s.enter c .picking)
  | .switching t => .ok ({ s with curthread := update s.curthread c t }.enter c .arriving)
  | .arriving => .ok ((s.setState (s.curthread c) .run).enter c .exorcising)
  | .exorcising => exorcise c s

def wchanWakeone (c : C) (w : W) (s : State C W) : Except Stop (State C W) :=
  if !s.ready c then .error .blocked
  else match s.wchan w with
    | [] => .ok s
    | t::ts => .ok ((s.setWchan w ts).hold c (.waking [t]))

def wchanWakeall (c : C) (w : W) (s : State C W) : Except Stop (State C W) :=
  if !s.ready c then .error .blocked
  else .ok ((s.setWchan w []).hold c (.waking (s.wchan w)))

/-- A thread that has the CPU of the caller. -/
def threadCreate (c : C) (s : State C W) : State C W :=
  { s with
    tCpu := update s.tCpu s.next (s.tCpu (s.curthread c))
    tState := update s.tState s.next .ready
    forked := update s.forked (s.curthread c) (some s.next)
    live := update s.live s.next true
    next := s.next+1 }

/-- `thread_fork` up to `proc_addthread`. -/
def threadFork (c : C) (s : State C W) : Except Stop (State C W) :=
  if !s.calls c then .error .blocked else .ok (threadCreate c s)

/-- `proc_addthread` has failed. -/
def forkFails (c : C) (s : State C W) : Except Stop (State C W) :=
  if !(s.mode c = .running && s.hand c = .none) then .error .blocked
  else match s.forked (s.curthread c) with
    | none => .error .blocked
    | some t => threadDestroy c t { s with forked := update s.forked (s.curthread c) none }

/-- `thread_make_runnable(newthread, false)`. -/
def forkQueues (c : C) (s : State C W) : Except Stop (State C W) :=
  if !(s.mode c = .running && s.hand c = .none) then .error .blocked
  else match s.forked (s.curthread c) with
    | none => .error .blocked
    | some t => threadMakeRunnable c t false { s with forked := update s.forked (s.curthread c) none }

def considerMigration (allcpus : List C) (c : C) (s : State C W) : Except Stop (State C W) :=
  if !s.ready c then .error .blocked
  else .ok (s.hold c (.counting allcpus 0 0))

/-- `DIVROUNDUP(total_count, numcpus)`. -/
def shareOf (allcpus : List C) (totalCount : ℕ) : ℕ := (totalCount+allcpus.length-1) / allcpus.length

/-- One turn of the first loop of `thread_consider_migration`, or what follows it. -/
def count (allcpus : List C) (c : C) (s : State C W) : List C → ℕ → ℕ → Except Stop (State C W)
  | [], totalCount, myCount =>
    if myCount < shareOf allcpus totalCount then .ok (s.hold c .none)
    else .ok (s.hold c (.taking (myCount - shareOf allcpus totalCount) (shareOf allcpus totalCount)))
  | d::rest, totalCount, myCount =>
    if (s.mode d).locked then .error .blocked
    else .ok (s.hold c (.counting rest (totalCount+(s.runqueue d).length)
      (if d = c then (s.runqueue d).length else myCount)))

/-- `to_send` threads from the tail of the own run queue, in their order there;
the tail of an empty queue is a null pointer. -/
def take (allcpus : List C) (c : C) (toSend oneShare : ℕ) (s : State C W) : Except Stop (State C W) :=
  let keep := (s.runqueue c).length - toSend
  if toSend ≤ (s.runqueue c).length then
    .ok ((s.setRunqueue c ((s.runqueue c).take keep)).hold c
      (.sending allcpus toSend oneShare ((s.runqueue c).drop keep)))
  else .error .panic

def migrate (t : ℕ) (d : C) (s : State C W) : State C W :=
  { s with tCpu := update s.tCpu t (some d) }.enqueue d [t]

/-- The inner loop, with the lock of `d`. -/
def sendTo (c d : C) (rest : List C) (oneShare : ℕ) : ℕ → List ℕ → State C W → Except Stop (State C W)
  | 0, victims, s => .ok (s.hold c (.sending rest 0 oneShare victims))
  | toSend+1, victims, s =>
    if (s.runqueue d).length < oneShare then
      match victims with
      | [] => .error .panic
      | t::ts =>
        -- the current thread of an idle CPU, woken again
        if t = s.curthread c then sendTo c d rest oneShare toSend (ts ++ [t]) s
        else sendTo c d rest oneShare toSend ts (migrate t d s)
    else .ok (s.hold c (.sending rest (toSend+1) oneShare victims))

/-- One turn of the loop over the other CPUs. -/
def send (c : C) (s : State C W) : List C → ℕ → ℕ → List ℕ → Except Stop (State C W)
  | [], _, _, victims => .ok (s.hold c (.returning victims))
  | d::rest, toSend, oneShare, victims =>
    if toSend = 0 then .ok (s.hold c (.returning victims))
    else if d = c then .ok (s.hold c (.sending rest toSend oneShare victims))
    else if (s.mode d).locked then .error .blocked
    else sendTo c d rest oneShare toSend victims s

/-- The next step of the operation a CPU is in. -/
def operate (allcpus : List C) (c : C) (s : State C W) : Except Stop (State C W) :=
  match s.hand c with
  | .none => threadSwitch c s
  | .waking [] => .ok (s.hold c .none)
  | .waking (t::ts) => threadMakeRunnable c t false (s.hold c (.waking ts))
  | .counting rest totalCount myCount => count allcpus c s rest totalCount myCount
  | .taking toSend oneShare => take allcpus c toSend oneShare s
  | .sending rest toSend oneShare victims => send c s rest toSend oneShare victims
  | .returning victims => .ok ((s.enqueue c victims).hold c .none)

/-- One step of CPU `a.1`. -/
def step (allcpus : List C) (a : C × Action W) (s : State C W) : Except Stop (State C W) :=
  match a.2 with
  | .threadYield => threadYield a.1 s
  | .wchanSleep w => wchanSleep a.1 w s
  | .threadExit => threadExit a.1 s
  | .wchanWakeone w => wchanWakeone a.1 w s
  | .wchanWakeall w => wchanWakeall a.1 w s
  | .threadFork => threadFork a.1 s
  | .forkFails => forkFails a.1 s
  | .forkQueues => forkQueues a.1 s
  | .considerMigration => considerMigration allcpus a.1 s
  | .resume => operate allcpus a.1 s

abbrev run (allcpus : List C) : List (C × Action W) → State C W → Except Stop (State C W) :=
  Runs.run (step allcpus)

/-- `cpu_create` has made one thread for each of the `n` CPUs, and that runs. -/
def boot (n : ℕ) : State (Fin n) W where
  curthread c := c
  runqueue _ := []
  zombies _ := []
  mode _ := .running
  hand _ := .none
  wchan _ := []
  tCpu t := if ht : t < n then some ⟨t, ht⟩ else none
  tState _ := .ready
  forked _ := none
  live t := decide (t < n)
  next := n

end OS161.Scheduler
