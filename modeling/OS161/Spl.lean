import Mathlib.Data.Finset.Card
import Mathlib.Data.Int.Notation
import OS161.Runs
import OS161.Vfs

/-!
# Interrupt levels and spinlocks

A thread turns interrupts off in two ways: it raises its level, or it takes a
spinlock. As these need not nest, the thread counts how often interrupts have been
turned off, and they come on again only when the count is back at zero.
-/

set_option autoImplicit false

namespace OS161.Spl

open Function OS161.Runs
open OS161.Vfs (Stop)

def IPL_NONE : ℤ := 0
def IPL_HIGH : ℤ := 1

/-- The thread that runs on a cpu, the cpu, and the spinlocks in `L`. There is no cpu yet early in the boot. -/
structure State (C L : Type*) where
  curcpu : Option C
  iplhighCount : ℤ
  curspl : ℤ
  irq : Bool
  spinlocks : ℕ
  lock : L → Bool
  holder : L → Option C

variable {C L : Type*}

def splraise (oldspl newspl : ℤ) (s : State C L) : Except Stop (State C L) :=
  if oldspl ≠ IPL_NONE then .error .panic
  else if newspl ≠ IPL_HIGH then .error .panic
  else if s.curcpu.isNone then .ok s
  else .ok { s with
    irq := if s.iplhighCount = 0 then false else s.irq
    iplhighCount := s.iplhighCount + 1 }

def spllower (oldspl newspl : ℤ) (s : State C L) : Except Stop (State C L) :=
  if oldspl ≠ IPL_HIGH then .error .panic
  else if newspl ≠ IPL_NONE then .error .panic
  else if s.curcpu.isNone then .ok s
  else .ok { s with
    iplhighCount := s.iplhighCount - 1
    irq := if s.iplhighCount - 1 = 0 then true else s.irq }

/-- Returns the level before. -/
def splx (spl : ℤ) (s : State C L) : Except Stop (ℤ × State C L) :=
  if s.curcpu.isNone then .ok (spl, s)
  else if s.curspl < spl then
    match splraise s.curspl spl s with
    | .error stop => .error stop
    | .ok s' => .ok (s'.curspl, { s' with curspl := spl })
  else if spl < s.curspl then
    match spllower s.curspl spl { s with curspl := spl } with
    | .error stop => .error stop
    | .ok s' => .ok (s.curspl, s')
  else .ok (spl, s)

def spl0 (s : State C L) : Except Stop (ℤ × State C L) := splx IPL_NONE s

def splhigh (s : State C L) : Except Stop (ℤ × State C L) := splx IPL_HIGH s

variable [DecidableEq C] [DecidableEq L]

/-- What `spinlock_acquire` does before it waits for the lock. -/
def enter (k : L) (s : State C L) : Except Stop (State C L) :=
  if s.curcpu.isNone then .ok s
  else if s.holder k = s.curcpu then .error .panic
  else .ok { s with spinlocks := s.spinlocks + 1 }

-- with the lock taken by another cpu the call does not return yet
def spinlockAcquire (k : L) (s : State C L) : Except Stop (State C L) :=
  match splraise IPL_NONE IPL_HIGH s with
  | .error stop => .error stop
  | .ok s' =>
    match enter k s' with
    | .error stop => .error stop
    | .ok s'' =>
      if s''.lock k then .error .blocked
      else .ok { s'' with lock := update s''.lock k true, holder := update s''.holder k s''.curcpu }

/-- What `spinlock_release` does before it gives the lock up. -/
def leave (k : L) (s : State C L) : Except Stop (State C L) :=
  if s.curcpu.isNone then .ok s
  else if s.holder k ≠ s.curcpu then .error .panic
  else if s.spinlocks = 0 then .error .panic
  else .ok { s with spinlocks := s.spinlocks - 1 }

def spinlockRelease (k : L) (s : State C L) : Except Stop (State C L) :=
  match leave k s with
  | .error stop => .error stop
  | .ok s' => spllower IPL_HIGH IPL_NONE { s' with lock := update s'.lock k false, holder := update s'.holder k none }

/-- A call of the thread, or a spinlock that another cpu takes or gives up. -/
inductive Action (C L : Type*) where
  | acquire (k : L)
  | release (k : L)
  | splx (spl : ℤ)
  | splhigh
  | spl0
  | elsewhere (k : L) (c : Option C)

def step : Action C L → State C L → Except Stop (State C L)
  | .acquire k, s => spinlockAcquire k s
  | .release k, s => spinlockRelease k s
  | .splx spl, s => (splx spl s).map Prod.snd
  | .splhigh, s => (splhigh s).map Prod.snd
  | .spl0, s => (spl0 s).map Prod.snd
  | .elsewhere k c, s => .ok { s with lock := update s.lock k c.isSome, holder := update s.holder k c }

/-- The thread takes spinlocks that its cpu does not have and gives up those that it has. -/
def Proper : Action C L → State C L → Prop
  | .acquire k, s => s.holder k ≠ s.curcpu
  | .release k, s => s.holder k = s.curcpu
  | .splx spl, _ => spl = IPL_NONE ∨ spl = IPL_HIGH
  | .splhigh, _ => True
  | .spl0, _ => True
  | .elsewhere k c, s => s.holder k ≠ s.curcpu ∧ c ≠ s.curcpu

instance : ∀ (a : Action C L) s, Decidable (Proper a s)
  | .acquire k, s => inferInstanceAs (Decidable (s.holder k ≠ s.curcpu))
  | .release k, s => inferInstanceAs (Decidable (s.holder k = s.curcpu))
  | .splx spl, _ => inferInstanceAs (Decidable (spl = IPL_NONE ∨ spl = IPL_HIGH))
  | .splhigh, _ => isTrue trivial
  | .spl0, _ => isTrue trivial
  | .elsewhere k c, s => inferInstanceAs (Decidable (s.holder k ≠ s.curcpu ∧ c ≠ s.curcpu))

omit [DecidableEq C] [DecidableEq L] in
/-- A thread as `thread_create` makes it. -/
def threadCreate (c : C) (lock : L → Bool) (holder : L → Option C) : State C L where
  curcpu := some c
  iplhighCount := 1
  curspl := IPL_HIGH
  irq := false
  spinlocks := 0
  lock := lock
  holder := holder

-- a new thread comes out of the switch with the lock of the run queue, which its cpu has
omit [DecidableEq C] in
/-- A thread as `thread_fork` makes it. -/
def threadFork (c : C) (runqueue : L) (lock : L → Bool) (holder : L → Option C) : State C L :=
  { threadCreate c (update lock runqueue true) (update holder runqueue (some c)) with
    iplhighCount := 2
    spinlocks := 1 }

/-- The first thread has no spinlock, one that has been forked has one. -/
inductive Starts (c : C) : State C L → Prop where
  | created (lock : L → Bool) (holder : L → Option C) (h : ∀ k, holder k ≠ some c) :
      Starts c (threadCreate c lock holder)
  | forked (runqueue : L) (lock : L → Bool) (holder : L → Option C) (h : ∀ k, holder k ≠ some c) :
      Starts c (threadFork c runqueue lock holder)

/-- The level counts once when it is high. -/
def raised (s : State C L) : ℤ := if s.curspl = IPL_HIGH then 1 else 0

/-- Cpu `c` has the spinlocks in `held`, and the count is right for them. -/
structure Counts (c : C) (held : Finset L) (s : State C L) : Prop where
  curcpu : s.curcpu = some c
  holder : ∀ k, k ∈ held ↔ s.holder k = some c
  spinlocks : s.spinlocks = held.card
  count : s.iplhighCount = held.card + raised s
  level : s.curspl = IPL_NONE ∨ s.curspl = IPL_HIGH
  irq : s.irq = false ↔ 0 < s.iplhighCount

/-- Every function for the level returns the one before. -/
structure LevelRight (s : State C L) : Prop where
  splx : ∀ spl, spl = IPL_NONE ∨ spl = IPL_HIGH → ∃ s', Spl.splx spl s = .ok (s.curspl, s') ∧ s'.curspl = spl
  spl0 : ∃ s', Spl.spl0 s = .ok (s.curspl, s') ∧ s'.curspl = IPL_NONE
  splhigh : ∃ s', Spl.splhigh s = .ok (s.curspl, s') ∧ s'.curspl = IPL_HIGH

variable {c : C} {held : Finset L} {s s' : State C L} {k : L} {spl : ℤ}

omit [DecidableEq C] [DecidableEq L] in
theorem splraise_ok (h : s.curcpu = some c) : splraise IPL_NONE IPL_HIGH s =
    .ok { s with irq := if s.iplhighCount = 0 then false else s.irq, iplhighCount := s.iplhighCount + 1 } := by
  simp [splraise, h]

omit [DecidableEq C] [DecidableEq L] in
theorem spllower_ok (h : s.curcpu = some c) : spllower IPL_HIGH IPL_NONE s =
    .ok { s with
      iplhighCount := s.iplhighCount - 1
      irq := if s.iplhighCount - 1 = 0 then true else s.irq } := by
  simp [spllower, h]

omit [DecidableEq C] [DecidableEq L] in
/-- The count goes up by one. -/
theorem irq_raised {n : ℤ} {irq : Bool} (hn : 0 ≤ n) (h : irq = false ↔ 0 < n) :
    (if n = 0 then false else irq) = false ↔ 0 < n+1 := by
  by_cases hzero : n = 0
  · rw [if_pos hzero]
    simp [hzero]
  · rw [if_neg hzero, h]
    omega

omit [DecidableEq C] [DecidableEq L] in
/-- The count goes down by one. -/
theorem irq_lowered {n : ℤ} {irq : Bool} (hn : 0 < n) (h : irq = false ↔ 0 < n) :
    (if n-1 = 0 then true else irq) = false ↔ 0 < n-1 := by
  by_cases hone : n-1 = 0
  · rw [if_pos hone, hone]
    simp
  · rw [if_neg hone, h]
    omega

omit [DecidableEq C] [DecidableEq L] in
theorem raised_nonneg (s : State C L) : 0 ≤ raised s := by
  unfold raised
  split_ifs <;> decide

omit [DecidableEq C] [DecidableEq L] in
theorem Counts.nonneg (h : Counts c held s) : 0 ≤ s.iplhighCount := by
  have hcount := h.count
  have hraised := raised_nonneg s
  omega

omit [DecidableEq C] [DecidableEq L] in
theorem splx_spec (h : Counts c held s) (hspl : spl = IPL_NONE ∨ spl = IPL_HIGH) :
    ∃ s', splx spl s = .ok (s.curspl, s') ∧ s'.curspl = spl ∧ Counts c held s' := by
  have hcount := h.count
  have hlow : IPL_NONE < IPL_HIGH := by decide
  have hne : IPL_NONE ≠ IPL_HIGH := by decide
  obtain hold | hold := h.level
  · have hraised : raised s = 0 := by
      rw [raised, hold, if_neg hne]
    obtain rfl | rfl := hspl
    · refine ⟨s, ?_, hold, h⟩
      simp [splx, h.curcpu, hold]
    · -- the level goes up
      have hraise := splraise_ok h.curcpu
      have hrun : splx IPL_HIGH s = .ok (s.curspl, { s with
          curspl := IPL_HIGH
          irq := if s.iplhighCount = 0 then false else s.irq
          iplhighCount := s.iplhighCount + 1 }) := by
        rw [splx, if_neg (by simp [h.curcpu]), if_pos (hold ▸ hlow)]
        simp only [hold, hraise]
      refine ⟨_, hrun, rfl, h.curcpu, h.holder, h.spinlocks, ?_, .inr rfl, irq_raised h.nonneg h.irq⟩
      show s.iplhighCount + 1 = held.card + if IPL_HIGH = IPL_HIGH then 1 else 0
      rw [if_pos rfl]
      omega
  · have hraised : raised s = 1 := by
      rw [raised, hold, if_pos rfl]
    obtain rfl | rfl := hspl
    · -- the level goes down
      have hlower := spllower_ok (s := { s with curspl := IPL_NONE }) h.curcpu
      have hpos : 0 < s.iplhighCount := by omega
      have hrun : splx IPL_NONE s = .ok (s.curspl, { s with
          curspl := IPL_NONE
          iplhighCount := s.iplhighCount - 1
          irq := if s.iplhighCount - 1 = 0 then true else s.irq }) := by
        rw [splx, if_neg (by simp [h.curcpu]), if_neg (by rw [hold]; decide), if_pos (hold ▸ hlow)]
        simp only [hold, hlower]
      refine ⟨_, hrun, rfl, h.curcpu, h.holder, h.spinlocks, ?_, .inl rfl, irq_lowered hpos h.irq⟩
      show s.iplhighCount - 1 = held.card + if IPL_NONE = IPL_HIGH then 1 else 0
      rw [if_neg hne]
      omega
    · refine ⟨s, ?_, hold, h⟩
      simp [splx, h.curcpu, hold]

omit [DecidableEq C] [DecidableEq L] in
theorem Counts.levelRight (h : Counts c held s) : LevelRight s := by
  refine ⟨?_, ?_, ?_⟩
  · intro spl hspl
    obtain ⟨s', hrun, hlevel, -⟩ := splx_spec h hspl
    exact ⟨s', hrun, hlevel⟩
  · obtain ⟨s', hrun, hlevel, -⟩ := splx_spec h (.inl rfl)
    exact ⟨s', hrun, hlevel⟩
  · obtain ⟨s', hrun, hlevel, -⟩ := splx_spec h (.inr rfl)
    exact ⟨s', hrun, hlevel⟩

theorem spinlockAcquire_spec (h : Counts c held s) (hk : s.holder k ≠ s.curcpu) :
    Ensures (· = .blocked) (Counts c (insert k held)) (spinlockAcquire k s) := by
  have hnew : k ∉ held := by
    rwa [h.holder, ← h.curcpu]
  have hcard := Finset.card_insert_of_notMem hnew
  have hspin := h.spinlocks
  have hcount := h.count
  rw [spinlockAcquire, splraise_ok h.curcpu]
  simp only [enter, h.curcpu, Option.isNone_some, Bool.false_eq_true, if_false, if_neg (h.curcpu ▸ hk)]
  by_cases hlock : s.lock k = true
  · simp only [hlock, if_true]
    exact rfl
  · simp only [hlock, Bool.false_eq_true, if_false]
    refine ⟨rfl, ?_, ?_, ?_, h.level, irq_raised h.nonneg h.irq⟩
    · intro j
      rw [Finset.mem_insert]
      by_cases hj : j = k
      · simp [hj]
      · simp only [hj, false_or, update_of_ne hj]
        exact h.holder j
    · show s.spinlocks + 1 = _
      omega
    · show s.iplhighCount + 1 = _ + raised s
      omega

theorem spinlockRelease_spec (h : Counts c held s) (hk : s.holder k = s.curcpu) :
    Ensures (· = .blocked) (Counts c (held.erase k)) (spinlockRelease k s) := by
  have hmem : k ∈ held := by
    rw [h.holder, ← h.curcpu, hk]
  have hcard := Finset.card_erase_add_one hmem
  have hspin := h.spinlocks
  have hcount := h.count
  have hraised := raised_nonneg s
  have hleave : leave k s = .ok { s with spinlocks := s.spinlocks - 1 } := by
    rw [leave, if_neg (by simp [h.curcpu]), if_neg (not_not.mpr hk), if_neg (by omega)]
  have hlower := spllower_ok (s := { s with
    spinlocks := s.spinlocks - 1
    lock := update s.lock k false
    holder := update s.holder k none }) h.curcpu
  have hpos : 0 < s.iplhighCount := by omega
  simp only [spinlockRelease, hleave, hlower]
  refine ⟨h.curcpu, ?_, ?_, ?_, h.level, irq_lowered hpos h.irq⟩
  · intro j
    rw [Finset.mem_erase]
    by_cases hj : j = k
    · simp [hj]
    · simp only [ne_eq, hj, not_false_eq_true, true_and, update_of_ne hj]
      exact h.holder j
  · show s.spinlocks - 1 = _
    omega
  · show s.iplhighCount - 1 = _ + raised s
    omega

theorem step_counts (h : Counts c held s) (a : Action C L) (ha : Proper a s) :
    Ensures (· = .blocked) (fun s' => ∃ held', Counts c held' s') (step a s) := by
  have hsplx : ∀ spl, spl = IPL_NONE ∨ spl = IPL_HIGH →
      Ensures (· = .blocked) (fun s' => ∃ held', Counts c held' s') ((splx spl s).map Prod.snd) := by
    intro spl hspl
    obtain ⟨s', hrun, -, hc⟩ := splx_spec h hspl
    rw [hrun]
    exact ⟨held, hc⟩
  cases a with
  | acquire k =>
    have hspec := spinlockAcquire_spec h ha
    rw [step]
    cases hrun : spinlockAcquire k s with
    | error stop => rwa [hrun] at hspec
    | ok s' =>
      rw [hrun] at hspec
      exact ⟨_, hspec⟩
  | release k =>
    have hspec := spinlockRelease_spec h ha
    rw [step]
    cases hrun : spinlockRelease k s with
    | error stop => rwa [hrun] at hspec
    | ok s' =>
      rw [hrun] at hspec
      exact ⟨_, hspec⟩
  | splx spl => exact hsplx spl ha
  | splhigh => exact hsplx IPL_HIGH (.inr rfl)
  | spl0 => exact hsplx IPL_NONE (.inl rfl)
  | elsewhere k d =>
    refine ⟨held, h.curcpu, ?_, h.spinlocks, h.count, h.level, h.irq⟩
    intro j
    by_cases hj : j = k
    · subst hj
      simp only [h.holder, update_self, ← h.curcpu]
      exact iff_of_false ha.1 ha.2
    · simp only [update_of_ne hj]
      exact h.holder j

omit [DecidableEq C] in
theorem starts_counts (h : Starts c s) : ∃ held, Counts c held s := by
  cases h with
  | created lock holder h =>
    refine ⟨∅, rfl, ?_, rfl, rfl, .inr rfl, iff_of_true rfl Int.one_pos⟩
    intro k
    simpa [threadCreate] using h k
  | forked runqueue lock holder h =>
    refine ⟨{runqueue}, rfl, ?_, rfl, rfl, .inr rfl, iff_of_true rfl (Int.natCast_pos.mpr Nat.two_pos)⟩
    intro k
    rw [Finset.mem_singleton]
    by_cases hk : k = runqueue
    · simp [threadFork, threadCreate, hk]
    · simp only [threadFork, threadCreate, update_of_ne hk, hk, false_iff]
      exact h k

/-- Whatever a thread calls, the count is right for the spinlocks that its cpu has. -/
theorem run_levels (as : List (Action C L)) (hs : Starts c s) (hg : Guarded step Proper as s) :
    match run step as s with
    | .error stop => stop = .blocked
    | .ok s' => (∃ held, Counts c held s') ∧ 0 ≤ s'.iplhighCount ∧ LevelRight s' := by
  have hrun : Ensures (· = .blocked) (fun s => ∃ held, Counts c held s) (run step as s) :=
    guarded_ensures (fun a s ⟨_, hc⟩ ha => step_counts hc a ha) hg (starts_counts hs)
  cases hr : run step as s with
  | error stop => rwa [hr] at hrun
  | ok s' =>
    rw [hr] at hrun
    obtain ⟨held, hc⟩ := hrun
    exact ⟨⟨held, hc⟩, hc.nonneg, hc.levelRight⟩

/-- The spinlocks of the comment in the source, released in the order in which they were taken. -/
def redAndBlue : List (Action ℕ Bool) :=
  [.acquire false, .splhigh, .acquire true, .splx IPL_NONE, .release false, .release true]

theorem redAndBlue_levels :
    match run step redAndBlue (threadCreate 0 (fun _ => false) fun _ => none) with
    | .error stop => stop = .blocked
    | .ok s' => (∃ held, Counts 0 held s') ∧ 0 ≤ s'.iplhighCount ∧ LevelRight s' :=
  run_levels redAndBlue (.created (fun _ => false) _ fun _ => Option.some_ne_none 0 ∘ Eq.symm) (by decide)

end OS161.Spl
