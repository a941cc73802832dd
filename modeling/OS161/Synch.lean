import Mathlib.Data.Fintype.Option
import OS161.Channels
import OS161.Runs

/-!
# Locks and condition variables

One lock and any number of condition variables used with it. A thread that
waits keeps the spinlock of the condition variable while it releases the lock,
until it is on the channel. What the threads do between the calls is a
parameter: from its own position and the shared data a thread decides on its
next call. The calls of the deadlock detector are left out here.
-/

set_option autoImplicit false

namespace OS161.Synch

open Function OS161.Channels OS161.Vfs

structure Mem (T σ : Type) where
  available : Bool
  holder : Option T
  shared : σ

def Mem.taken {T σ : Type} (m : Mem T σ) (t : T) : Mem T σ := { m with available := false, holder := some t }

def Mem.freed {T σ : Type} (m : Mem T σ) : Mem T σ := { m with available := true, holder := none }

inductive Call (C : Type) where
  | skip
  | acquire
  | release
  | wait (c : C)
  | signal (c : C)
  | broadcast (c : C)
  deriving DecidableEq

/-- In `test` a thread looks whether the lock is available, for the first time
or after it has been woken. -/
inductive Acquire where
  | check | spin | test (again : Bool) | sleep | asleep | woken | done
  deriving DecidableEq

inductive Release where
  | check | spin | clear | wake | done
  deriving DecidableEq

inductive Wait where
  | spin | sleep | asleep | woken | unspin
  deriving DecidableEq

inductive Wake where
  | spin | wake | done
  deriving DecidableEq

/-- Where a thread is. `inside` tells whether it is between the return of its
`lock_acquire` and its `lock_release`; `within` is the condition variable whose
`cv_wait` has made the call; `p` is where the thread goes on afterwards. -/
inductive Point (C P : Type) where
  | client (inside : Bool) (p : P)
  | acquire (a : Acquire) (within : Option C) (p : P)
  | release (r : Release) (within : Option C) (p : P)
  | wait (w : Wait) (c : C) (p : P)
  | wake (w : Wake) (all : Bool) (c : C) (p : P)
  deriving DecidableEq

variable {T C P σ L : Type} [DecidableEq T]

/-- The assertion each function begins with. Whether a thread is the holder is
not changed by others. -/
def enter (t : T) (m : Mem T σ) (inside : Bool) (p : P) : Call C → Except Stop (Point C P)
  | .skip => .ok (.client inside p)
  | .acquire => if m.holder = some t then .error .panic else .ok (.acquire .spin none p)
  | .release => if m.holder = some t then .ok (.release .spin none p) else .error .panic
  | .wait c => if m.holder = some t then .ok (.wait .spin c p) else .error .panic
  | .signal c => if m.holder = some t then .ok (.wake .spin false c p) else .error .panic
  | .broadcast c => if m.holder = some t then .ok (.wake .spin true c p) else .error .panic

/-- What a thread does between two calls. -/
abbrev Client (T C P σ L : Type) := L → T → P → σ → Except Stop (Call C × P × σ)

def proceed (move : Client T C P σ L) (inside : Bool) (p : P) (l : L) (t : T) (m : Mem T σ) :
    Except Stop (Mem T σ × Point C P) :=
  match move l t p m.shared with
  | .error e => .error e
  | .ok (call, q, x) => match enter t m inside q call with
    | .error e => .error e
    | .ok y => .ok ({ m with shared := x }, y)

def test (within : Option C) (p : P) (t : T) (m : Mem T σ) : Except Stop (Mem T σ × Point C P) :=
  if m.available then .ok (m.taken t, .acquire .done within p)
  else .ok (m, .acquire .sleep within p)

/-- The lock's spinlock and channel are `none`, those of a condition variable
`some`. -/
def code (move : Client T C P σ L) : Point C P → Instr T (Option C) (Mem T σ) (Point C P) L
  | .client inside p => .act (proceed move inside p)
  | .acquire .check within p => .act (fun _ t m =>
      if m.holder = some t then .error .panic else .ok (m, .acquire .spin within p))
  | .acquire .spin within p => .spinAcquire none (.acquire (.test false) within p)
  | .acquire (.test _) within p => .act (fun _ t m => test within p t m)
  | .acquire .sleep within p => .sleep none (.acquire .asleep within p)
  | .acquire .asleep _ _ => .halt
  | .acquire .woken within p => .spinAcquire none (.acquire (.test true) within p)
  | .acquire .done _ p => .spinRelease none (.client true p)
  | .release .check within p => .act (fun _ t m =>
      if m.holder = some t then .ok (m, .release .spin within p) else .error .panic)
  | .release .spin within p => .spinAcquire none (.release .clear within p)
  | .release .clear within p => .act (fun _ _ m => .ok (m.freed, .release .wake within p))
  | .release .wake within p => .wakeOne none (.release .done within p)
  | .release .done none p => .spinRelease none (.client false p)
  | .release .done (some c) p => .spinRelease none (.wait .sleep c p)
  | .wait .spin c p => .spinAcquire (some c) (.release .check (some c) p)
  | .wait .sleep c p => .sleep (some c) (.wait .asleep c p)
  | .wait .asleep _ _ => .halt
  | .wait .woken c p => .spinAcquire (some c) (.wait .unspin c p)
  | .wait .unspin c p => .spinRelease (some c) (.acquire .check (some c) p)
  | .wake .spin all c p => .spinAcquire (some c) (.wake .wake all c p)
  | .wake .wake false c p => .wakeOne (some c) (.wake .done false c p)
  | .wake .wake true c p => .wakeAll (some c) (.wake .done true c p)
  | .wake .done _ c p => .spinRelease (some c) (.client true p)

def woken : Point C P → Point C P
  | .acquire .asleep within p => .acquire .woken within p
  | .wait .asleep c p => .wait .woken c p
  | x => x

def program (move : Client T C P σ L) : Program T (Option C) (Mem T σ) (Point C P) L := ⟨code move, woken⟩

abbrev Kernel (T C P σ : Type) := State T (Option C) (Mem T σ) (Point C P)

section Machine

variable [DecidableEq C] [Fintype C]

abbrev step (move : Client T C P σ L) : T × L → Kernel T C P σ → Except Stop (Kernel T C P σ) :=
  Channels.step (program move)

abbrev run (move : Client T C P σ L) : List (T × L) → Kernel T C P σ → Except Stop (Kernel T C P σ) :=
  Runs.run (step move)

end Machine

/-- `lock_create` and `cv_create`; nobody has called anything yet. -/
def create (p : T → P) (x : σ) : Kernel T C P σ where
  spin _ := none
  chan _ := []
  place t := .client false (p t)
  mem := ⟨true, none, x⟩
  now := 1
  since _ := 0

def asleep : Point C P → Option (Option C)
  | .acquire .asleep _ _ => some none
  | .wait .asleep c _ => some (some c)
  | _ => none

def spins [DecidableEq C] : Point C P → Option C → Bool
  | .acquire (.test _) _ _, k | .acquire .sleep _ _, k | .acquire .done _ _, k => decide (k = none)
  | .release .check (some c) _, k | .release .spin (some c) _, k => decide (k = some c)
  | .release .clear w _, k | .release .wake w _, k | .release .done w _, k => decide (k = none ∨ k = w)
  | .wait .sleep c _, k | .wait .unspin c _, k => decide (k = some c)
  | .wake .wake _ c _, k | .wake .done _ c _, k => decide (k = some c)
  | _, _ => false

/-- The places at which a thread has the lock. -/
def holds : Point C P → Bool
  | .client inside _ => inside
  | .acquire .done _ _ => true
  | .release .check _ _ | .release .spin _ _ | .release .clear _ _ => true
  | .wait .spin _ _ => true
  | .wake _ _ _ _ => true
  | _ => false

theorem enter_cases {t : T} {m : Mem T σ} {inside : Bool} {p : P} {call : Call C} {y : Point C P}
    (he : enter t m inside p call = .ok y) :
    y = .client inside p ∧ call = .skip ∨
    y = .acquire .spin none p ∧ call = .acquire ∧ m.holder ≠ some t ∨
    m.holder = some t ∧ (y = .release .spin none p ∧ call = .release ∨
      (∃ c, y = .wait .spin c p ∧ call = .wait c) ∨ (∃ c, y = .wake .spin false c p ∧ call = .signal c) ∨
      ∃ c, y = .wake .spin true c p ∧ call = .broadcast c) := by
  cases call <;> simp only [enter] at he
  case skip => simp_all
  all_goals
    split at he <;> simp_all

theorem proceed_ok {move : Client T C P σ L} {inside : Bool} {p : P} {l : L} {t : T} {m m' : Mem T σ}
    {y : Point C P} (hf : proceed move inside p l t m = .ok (m', y)) :
    ∃ call q x, move l t p m.shared = .ok (call, q, x) ∧ enter t m inside q call = .ok y ∧
      m' = { m with shared := x } := by
  simp only [proceed] at hf
  split at hf
  · cases hf
  · next call q x hm =>
    split at hf
    · cases hf
    · next y he =>
      cases hf
      exact ⟨call, q, x, hm, he, rfl⟩

theorem disciplined [DecidableEq C] (move : Client T C P σ L) : Disciplined (program move) spins asleep := by
  constructor
  · intro x f l t m m' y hc hf
    cases x with
    | client inside p =>
      cases hc
      obtain ⟨call, q, x, -, he, -⟩ := proceed_ok hf
      rcases enter_cases he with ⟨rfl, -⟩ | ⟨rfl, -⟩ | ⟨-, ⟨rfl, -⟩ | ⟨c, rfl, -⟩ | ⟨c, rfl, -⟩ | ⟨c, rfl, -⟩⟩ <;>
        simp [asleep, spins]
    | acquire a within p =>
      cases a <;> cases hc
      · simp only at hf
        split at hf <;> cases hf
        simp [asleep, spins]
      · simp only [test] at hf
        split at hf <;> cases hf <;> simp [asleep, spins]
    | release r within p =>
      cases r <;> (try cases within) <;> cases hc
      · simp only at hf
        split at hf <;> cases hf
        simp [asleep, spins]
      · simp only at hf
        split at hf <;> cases hf
        simp [asleep, spins]
      · cases hf
        simp [asleep, spins]
      · cases hf
        simp [asleep, spins]
    | wait w c p => cases w <;> cases hc
    | wake w all c p => cases w <;> cases all <;> cases hc
  · intro x k y hc
    cases x with
    | client inside p => cases hc
    | acquire a within p => cases a <;> cases hc <;> simp [asleep, spins]
    | release r within p => cases r <;> cases within <;> cases hc <;> simp [asleep, spins, Bool.or_comm]
    | wait w c p => cases w <;> cases hc <;> simp [asleep, spins]
    | wake w all c p => cases w <;> cases all <;> cases hc <;> simp [asleep, spins]
  · intro x k y hc
    cases x with
    | client inside p => cases hc
    | acquire a within p =>
      cases a <;> cases hc
      simp [asleep, spins]
    | release r within p =>
      cases r <;> cases within <;> cases hc
      · simp [asleep, spins]
      · refine ⟨rfl, rfl, by simp [spins], ?_⟩
        intro j
        cases j <;> simp [spins]
    | wait w c p =>
      cases w <;> cases hc
      simp [asleep, spins]
    | wake w all c p => cases w <;> cases all <;> cases hc <;> simp [asleep, spins]
  · intro x k y hc
    cases x with
    | client inside p => cases hc
    | acquire a within p =>
      cases a <;> cases hc
      simp [asleep, spins]
    | release r within p => cases r <;> cases within <;> cases hc
    | wait w c p =>
      cases w <;> cases hc
      simp [asleep, spins]
    | wake w all c p => cases w <;> cases all <;> cases hc
  · intro x k y hc
    cases x with
    | client inside p => cases hc
    | acquire a within p => cases a <;> cases hc
    | release r within p => cases r <;> cases within <;> cases hc <;> simp [asleep, spins]
    | wait w c p => cases w <;> cases hc
    | wake w all c p =>
      cases w <;> cases all <;> cases hc
      simp [asleep, spins]
  · intro x k y hc
    cases x with
    | client inside p => cases hc
    | acquire a within p => cases a <;> cases hc
    | release r within p => cases r <;> cases within <;> cases hc
    | wait w c p => cases w <;> cases hc
    | wake w all c p =>
      cases w <;> cases all <;> cases hc
      simp [asleep, spins]
  · intro x k hx
    cases x with
    | client inside p => cases hx
    | acquire a within p =>
      cases a <;> cases hx
      simp [program, woken, asleep, spins]
    | release r within p => cases r <;> cases hx
    | wait w c p =>
      cases w <;> cases hx
      simp [program, woken, asleep, spins]
    | wake w all c p => cases w <;> cases hx

/-- Steps that only take or let go of a spinlock, or pass an assertion. -/
inductive Silent : Point C P → Point C P → Prop where
  | acquireCheck (w : Option C) (p : P) : Silent (.acquire .check w p) (.acquire .spin w p)
  | acquireSpin (w : Option C) (p : P) : Silent (.acquire .spin w p) (.acquire (.test false) w p)
  | acquireWoken (w : Option C) (p : P) : Silent (.acquire .woken w p) (.acquire (.test true) w p)
  | acquireDone (w : Option C) (p : P) : Silent (.acquire .done w p) (.client true p)
  | releaseCheck (w : Option C) (p : P) : Silent (.release .check w p) (.release .spin w p)
  | releaseSpin (w : Option C) (p : P) : Silent (.release .spin w p) (.release .clear w p)
  | releaseDone (p : P) : Silent (.release .done none p) (.client false p)
  | releaseSleep (c : C) (p : P) : Silent (.release .done (some c) p) (.wait .sleep c p)
  | waitSpin (c : C) (p : P) : Silent (.wait .spin c p) (.release .check (some c) p)
  | waitWoken (c : C) (p : P) : Silent (.wait .woken c p) (.wait .unspin c p)
  | waitUnspin (c : C) (p : P) : Silent (.wait .unspin c p) (.acquire .check (some c) p)
  | wakeSpin (all : Bool) (c : C) (p : P) : Silent (.wake .spin all c p) (.wake .wake all c p)
  | wakeDone (all : Bool) (c : C) (p : P) : Silent (.wake .done all c p) (.client true p)

/-- Everything a step can do, spinlocks aside. -/
inductive Event [DecidableEq C] (move : Client T C P σ L) (t : T) (l : L) (s : Kernel T C P σ) :
    Kernel T C P σ → Prop where
  | client {inside p call q x y} (hp : s.place t = .client inside p)
      (hm : move l t p s.mem.shared = .ok (call, q, x)) (he : enter t s.mem inside q call = .ok y) :
      Event move t l s ({ s with mem := { s.mem with shared := x } }.goto t y)
  | silent {x spin} (hp : Silent (s.place t) x) : Event move t l s ({ s with spin := spin }.goto t x)
  | take {again w p} (hp : s.place t = .acquire (.test again) w p) (ha : s.mem.available = true) :
      Event move t l s ({ s with mem := s.mem.taken t }.goto t (.acquire .done w p))
  | refuse {again w p} (hp : s.place t = .acquire (.test again) w p) (ha : s.mem.available = false) :
      Event move t l s (s.goto t (.acquire .sleep w p))
  | clear {w p} (hp : s.place t = .release .clear w p) :
      Event move t l s ({ s with mem := s.mem.freed }.goto t (.release .wake w p))
  | sleep {spin since now k x} (hp : (∃ w p, s.place t = .acquire .sleep w p ∧ k = none ∧ x = .acquire .asleep w p) ∨
        ∃ c p, s.place t = .wait .sleep c p ∧ k = some c ∧ x = .wait .asleep c p) :
      Event move t l s ({ s with
        spin := spin
        chan := update s.chan k (s.chan k ++ [t])
        now := now
        since := since }.goto t x)
  | wakeNone {k x} (hp : (∃ w p, s.place t = .release .wake w p ∧ k = none ∧ x = .release .done w p) ∨
        ∃ c p, s.place t = .wake .wake false c p ∧ k = some c ∧ x = .wake .done false c p)
      (hk : s.spin k = some t) (hq : s.chan k = []) : Event move t l s (s.goto t x)
  | wakeOne {k x u us} (hp : (∃ w p, s.place t = .release .wake w p ∧ k = none ∧ x = .release .done w p) ∨
        ∃ c p, s.place t = .wake .wake false c p ∧ k = some c ∧ x = .wake .done false c p)
      (hk : s.spin k = some t) (hq : s.chan k = u::us) :
      Event move t l s ({ s with
        chan := update s.chan k us
        place := update s.place u (woken (s.place u)) }.goto t x)
  | wakeAll {c p} (hp : s.place t = .wake .wake true c p) (hk : s.spin (some c) = some t) :
      Event move t l s ((Channels.wakeAll (program move) (some c) s).goto t (.wake .done true c p))

variable [DecidableEq C] {move : Client T C P σ L} {s s' : Kernel T C P σ} {t : T} {l : L}

theorem act_event {f : L → T → Mem T σ → Except Stop (Mem T σ × Point C P)} {m : Mem T σ} {x : Point C P}
    (hc : code move (s.place t) = .act f) (hf : f l t s.mem = .ok (m, x)) :
    Event move t l s ({ s with mem := m }.goto t x) := by
  cases hp : s.place t with
  | client inside p =>
    rw [hp] at hc
    cases hc
    obtain ⟨call, q, y, hm, he, rfl⟩ := proceed_ok hf
    exact .client hp hm he
  | acquire a w p =>
    rw [hp] at hc
    cases a <;> cases hc
    · simp only at hf
      split at hf
      · cases hf
      · cases hf
        exact .silent (hp ▸ .acquireCheck w p)
    · simp only [test] at hf
      split at hf
      · next ha =>
        cases hf
        exact .take hp ha
      · next ha =>
        cases hf
        exact .refuse hp (by simpa using ha)
  | release r w p =>
    rw [hp] at hc
    cases r with
    | check =>
      cases hc
      simp only at hf
      split at hf
      · cases hf
        exact .silent (hp ▸ .releaseCheck w p)
      · cases hf
    | clear =>
      cases hc
      cases hf
      exact .clear hp
    | done => cases w <;> cases hc
    | _ => cases hc
  | wait w c p =>
    rw [hp] at hc
    cases w <;> cases hc
  | wake w all c p =>
    rw [hp] at hc
    cases w <;> cases all <;> cases hc

omit [DecidableEq C] in
theorem spin_silent {k : Option C} {x y : Point C P}
    (hc : code move y = .spinAcquire k x ∨ code move y = .spinRelease k x) : Silent y x := by
  cases y with
  | client inside p => rcases hc with hc | hc <;> cases hc
  | acquire a w p => cases a <;> rcases hc with hc | hc <;> cases hc <;> constructor
  | release r w p => cases r <;> cases w <;> rcases hc with hc | hc <;> cases hc <;> constructor
  | wait w c p => cases w <;> rcases hc with hc | hc <;> cases hc <;> constructor
  | wake w all c p => cases w <;> cases all <;> rcases hc with hc | hc <;> cases hc <;> constructor

omit [DecidableEq C] in
theorem sleep_place {k : Option C} {x y : Point C P} (hc : code move y = .sleep k x) :
    (∃ w p, y = .acquire .sleep w p ∧ k = none ∧ x = .acquire .asleep w p) ∨
      ∃ c p, y = .wait .sleep c p ∧ k = some c ∧ x = .wait .asleep c p := by
  cases y with
  | client inside p => cases hc
  | acquire a w p =>
    cases a <;> cases hc
    exact .inl ⟨w, p, rfl, rfl, rfl⟩
  | release r w p => cases r <;> cases w <;> cases hc
  | wait w c p =>
    cases w <;> cases hc
    exact .inr ⟨c, p, rfl, rfl, rfl⟩
  | wake w all c p => cases w <;> cases all <;> cases hc

omit [DecidableEq C] in
theorem wakeOne_place {k : Option C} {x y : Point C P} (hc : code move y = .wakeOne k x) :
    (∃ w p, y = .release .wake w p ∧ k = none ∧ x = .release .done w p) ∨
      ∃ c p, y = .wake .wake false c p ∧ k = some c ∧ x = .wake .done false c p := by
  cases y with
  | client inside p => cases hc
  | acquire a w p => cases a <;> cases hc
  | release r w p =>
    cases r with
    | wake =>
      cases hc
      exact .inl ⟨w, p, rfl, rfl, rfl⟩
    | done => cases w <;> cases hc
    | _ => cases hc
  | wait w c p => cases w <;> cases hc
  | wake w all c p =>
    cases w <;> cases all <;> cases hc
    exact .inr ⟨c, p, rfl, rfl, rfl⟩

omit [DecidableEq C] in
theorem wakeAll_place {k : Option C} {x y : Point C P} (hc : code move y = .wakeAll k x) :
    ∃ c p, y = .wake .wake true c p ∧ k = some c ∧ x = .wake .done true c p := by
  cases y with
  | client inside p => cases hc
  | acquire a w p => cases a <;> cases hc
  | release r w p => cases r <;> cases w <;> cases hc
  | wait w c p => cases w <;> cases hc
  | wake w all c p =>
    cases w <;> cases all <;> cases hc
    exact ⟨c, p, rfl, rfl, rfl⟩

theorem effect_event (he : Effect (program move) t l s s') : Event move t l s s' := by
  cases he with
  | act hc hf => exact act_event hc hf
  | spinAcquire hc hk => exact .silent (spin_silent (.inl hc))
  | spinRelease hc hk => exact .silent (spin_silent (.inr hc))
  | sleep hc hk ho => exact .sleep (sleep_place hc)
  | wakeNone hc hk hq => exact .wakeNone (wakeOne_place hc) hk hq
  | wakeOne hc hk hq => exact .wakeOne (wakeOne_place hc) hk hq
  | wakeAll hc hk =>
    obtain ⟨c, p, hp, rfl, rfl⟩ := wakeAll_place hc
    exact .wakeAll hp hk

end OS161.Synch
