import OS161.Channels
import OS161.Runs

/-!
# The recursive lock of the file systems

`vfs_biglock_acquire` and `vfs_biglock_release` count on a global variable how
often the lock has been taken by its holder, and use `lock_acquire` and
`lock_release` for the first and the last time only. The functions are
followed down to their reads and writes.
-/

set_option autoImplicit false

namespace OS161.Biglock

open Function OS161.Channels OS161.Vfs

/-- `vfs_biglock` without its spinlock and channel, and `vfs_biglock_depth`. -/
structure Mem (T : Type) where
  available : Bool
  holder : Option T
  depth : UInt32

inductive Op where
  | acquire
  | release
  deriving DecidableEq

/-- Where a thread is. In `lockCheck` it has called `lock_acquire`; the flag
tells that it has done so although it seems to hold the lock. -/
inductive Point where
  | idle
  | askHolder | askDepth
  | lockCheck (held : Bool) | lockSpin | test | sleep | asleep | woken | taken | lockDone
  | load | store (depth : UInt32)
  | assertHolder | assertDepth | unload | unstore (depth : UInt32) | testDepth
  | releaseCheck | releaseSpin | free | clear | wake | releaseDone
  deriving DecidableEq

/-- `nesting` only records the past: the calls of `vfs_biglock_acquire` that the
thread has not matched by a release yet. -/
structure Place where
  point : Point
  nesting : ℕ
  deriving DecidableEq

variable {T : Type} [DecidableEq T]

/-- Calls are properly nested: nothing is released that has not been acquired. -/
def start (n : ℕ) : Op → Except Stop Place
  | .acquire => .ok ⟨.askHolder, n⟩
  | .release => if n = 0 then .error .blocked else .ok ⟨.assertHolder, n⟩

/-- A `KASSERT`. -/
def check {M : Type} (ok : Bool) (m : M) (x : Place) : Except Stop (M × Place) :=
  if ok then .ok (m, x) else .error .panic

def code (x : Place) : Instr T Unit (Mem T) Place Op :=
  let n := x.nesting
  match x.point with
  | .idle => .act (fun op _ m => (start n op).map (m, ·))
  -- vfs_biglock_acquire
  | .askHolder => .act (fun _ t m => .ok (m, ⟨if m.holder = some t then .askDepth else .lockCheck false, n⟩))
  | .askDepth => .act (fun _ _ m => .ok (m, ⟨if m.depth = 0 then .lockCheck true else .load, n⟩))
  -- lock_acquire
  | .lockCheck _ => .act (fun _ t m => check (m.holder ≠ some t) m ⟨.lockSpin, n⟩)
  | .lockSpin => .spinAcquire () ⟨.test, n⟩
  | .test => .act (fun _ _ m =>
      .ok (if m.available then ({ m with available := false }, ⟨.taken, n⟩) else (m, ⟨.sleep, n⟩)))
  | .sleep => .sleep () ⟨.asleep, n⟩
  | .asleep => .halt
  | .woken => .spinAcquire () ⟨.test, n⟩
  | .taken => .act (fun _ t m => .ok ({ m with holder := some t }, ⟨.lockDone, n⟩))
  | .lockDone => .spinRelease () ⟨.load, n⟩
  -- vfs_biglock_depth++
  | .load => .act (fun _ _ m => .ok (m, ⟨.store m.depth, n⟩))
  | .store d => .act (fun _ _ m => .ok ({ m with depth := d+1 }, ⟨.idle, n+1⟩))
  -- vfs_biglock_release
  | .assertHolder => .act (fun _ t m => check (m.holder = some t) m ⟨.assertDepth, n⟩)
  | .assertDepth => .act (fun _ _ m => check (0 < m.depth) m ⟨.unload, n⟩)
  | .unload => .act (fun _ _ m => .ok (m, ⟨.unstore m.depth, n⟩))
  | .unstore d => .act (fun _ _ m => .ok ({ m with depth := d-1 }, ⟨.testDepth, n⟩))
  | .testDepth => .act (fun _ _ m => .ok (m, if m.depth = 0 then ⟨.releaseCheck, n⟩ else ⟨.idle, n-1⟩))
  -- lock_release
  | .releaseCheck => .act (fun _ t m => check (m.holder = some t) m ⟨.releaseSpin, n⟩)
  | .releaseSpin => .spinAcquire () ⟨.free, n⟩
  | .free => .act (fun _ _ m => .ok ({ m with available := true }, ⟨.clear, n⟩))
  | .clear => .act (fun _ _ m => .ok ({ m with holder := none }, ⟨.wake, n⟩))
  | .wake => .wakeOne () ⟨.releaseDone, n⟩
  | .releaseDone => .spinRelease () ⟨.idle, n-1⟩

def woken (x : Place) : Place :=
  match x.point with
  | .asleep => ⟨.woken, x.nesting⟩
  | _ => x

def program : Program T Unit (Mem T) Place Op := ⟨code, woken⟩

abbrev Kernel (T : Type) := State T Unit (Mem T) Place

abbrev step : T × Op → Kernel T → Except Stop (Kernel T) := Channels.step program

abbrev run : List (T × Op) → Kernel T → Except Stop (Kernel T) := Runs.run step

/-- `vfs_bootstrap`; nobody has called anything yet. -/
def bootstrap : Kernel T where
  spin _ := none
  chan _ := []
  place _ := ⟨.idle, 0⟩
  mem := ⟨true, none, 0⟩
  now := 1
  since _ := 0

def spins (x : Place) : Unit → Bool := fun _ =>
  match x.point with
  | .test | .sleep | .taken | .lockDone | .free | .clear | .wake | .releaseDone => true
  | _ => false

def asleep (x : Place) : Option Unit :=
  match x.point with
  | .asleep => some ()
  | _ => none

/-- The places at which a thread is the holder. -/
def holds (x : Place) : Bool :=
  match x.point with
  | .idle | .askHolder => decide (0 < x.nesting)
  | .askDepth | .lockDone | .load | .store _ => true
  | .assertHolder | .assertDepth | .unload | .unstore _ | .testDepth => true
  | .releaseCheck | .releaseSpin | .free | .clear => true
  | _ => false

/-- The places at which nobody else may be the holder. -/
def engaged (x : Place) : Bool :=
  match x.point with
  | .taken => true
  | _ => holds x

/-- What is known of the depth and the nesting at each place. -/
def Fits (x : Place) (depth : UInt32) : Prop :=
  match x.point with
  | .idle => 0 < x.nesting → depth.toNat = x.nesting
  | .askHolder => x.nesting+1 < 2^32 ∧ (0 < x.nesting → depth.toNat = x.nesting)
  | .askDepth => x.nesting+1 < 2^32 ∧ 0 < x.nesting ∧ depth.toNat = x.nesting
  | .lockCheck held => held = false ∧ x.nesting = 0
  | .lockSpin | .test | .sleep | .asleep | .woken => x.nesting = 0
  | .taken | .lockDone => x.nesting = 0 ∧ depth = 0
  | .load => x.nesting+1 < 2^32 ∧ depth.toNat = x.nesting
  | .store d => x.nesting+1 < 2^32 ∧ depth.toNat = x.nesting ∧ d = depth
  | .assertHolder | .assertDepth | .unload => 0 < x.nesting ∧ depth.toNat = x.nesting
  | .unstore d => 0 < x.nesting ∧ depth.toNat = x.nesting ∧ d = depth
  | .testDepth => depth.toNat+1 = x.nesting
  | .releaseCheck | .releaseSpin | .free | .clear => x.nesting = 1 ∧ depth = 0
  | .wake | .releaseDone => x.nesting = 1

/-- Only the one thread that is engaged knows about the depth. -/
structure Counted (m : Mem T) (place : T → Place) : Prop where
  holder : ∀ t, m.holder = some t ↔ holds (place t) = true
  single : ∀ t u, engaged (place t) = true → engaged (place u) = true → t = u
  available : m.available = true → ∀ t, engaged (place t) = true → (place t).point = .clear
  somebody : m.available = false → ∃ t, engaged (place t) = true ∧ (place t).point ≠ .clear
  fits : ∀ t, Fits (place t) m.depth
  idle : (∀ t, engaged (place t) = false) → m.depth = 0

omit [DecidableEq T] in
theorem check_ok {ok : Bool} {m m' : Mem T} {x y : Place} (h : check ok m x = .ok (m', y)) :
    ok = true ∧ m' = m ∧ y = x := by
  unfold check at h
  split at h
  · next hok =>
    cases h
    exact ⟨hok, rfl, rfl⟩
  · cases h

theorem start_ok {n : ℕ} {op : Op} {y : Place} (h : start n op = .ok y) :
    op = .acquire ∧ y = ⟨.askHolder, n⟩ ∨ op = .release ∧ 0 < n ∧ y = ⟨.assertHolder, n⟩ := by
  cases op with
  | acquire =>
    cases h
    exact .inl ⟨rfl, rfl⟩
  | release =>
    simp only [start] at h
    split at h
    · cases h
    · next hn =>
      cases h
      exact .inr ⟨rfl, Nat.pos_of_ne_zero hn, rfl⟩

/-- What a thread does between two operations on the spinlock. -/
inductive Moves (t : T) (m : Mem T) : Op → Place → Mem T → Place → Prop where
  | start {op n x} (h : start n op = .ok x) : Moves t m op ⟨.idle, n⟩ m x
  | askHolder {op n} :
      Moves t m op ⟨.askHolder, n⟩ m ⟨if m.holder = some t then .askDepth else .lockCheck false, n⟩
  | askDepth {op n} : Moves t m op ⟨.askDepth, n⟩ m ⟨if m.depth = 0 then .lockCheck true else .load, n⟩
  | lockCheck {op held n} (h : m.holder ≠ some t) : Moves t m op ⟨.lockCheck held, n⟩ m ⟨.lockSpin, n⟩
  | take {op n} (h : m.available = true) : Moves t m op ⟨.test, n⟩ { m with available := false } ⟨.taken, n⟩
  | refuse {op n} (h : m.available = false) : Moves t m op ⟨.test, n⟩ m ⟨.sleep, n⟩
  | taken {op n} : Moves t m op ⟨.taken, n⟩ { m with holder := some t } ⟨.lockDone, n⟩
  | load {op n} : Moves t m op ⟨.load, n⟩ m ⟨.store m.depth, n⟩
  | store {op d n} : Moves t m op ⟨.store d, n⟩ { m with depth := d+1 } ⟨.idle, n+1⟩
  | assertHolder {op n} (h : m.holder = some t) : Moves t m op ⟨.assertHolder, n⟩ m ⟨.assertDepth, n⟩
  | assertDepth {op n} (h : 0 < m.depth) : Moves t m op ⟨.assertDepth, n⟩ m ⟨.unload, n⟩
  | unload {op n} : Moves t m op ⟨.unload, n⟩ m ⟨.unstore m.depth, n⟩
  | unstore {op d n} : Moves t m op ⟨.unstore d, n⟩ { m with depth := d-1 } ⟨.testDepth, n⟩
  | last {op n} (h : m.depth = 0) : Moves t m op ⟨.testDepth, n⟩ m ⟨.releaseCheck, n⟩
  | inner {op n} (h : m.depth ≠ 0) : Moves t m op ⟨.testDepth, n⟩ m ⟨.idle, n-1⟩
  | releaseCheck {op n} (h : m.holder = some t) : Moves t m op ⟨.releaseCheck, n⟩ m ⟨.releaseSpin, n⟩
  | free {op n} : Moves t m op ⟨.free, n⟩ { m with available := true } ⟨.clear, n⟩
  | clear {op n} : Moves t m op ⟨.clear, n⟩ { m with holder := none } ⟨.wake, n⟩

theorem act_moves {x y : Place} {f : Op → T → Mem T → Except Stop (Mem T × Place)} {op : Op} {t : T} {m m' : Mem T}
    (hc : code x = .act f) (hf : f op t m = .ok (m', y)) : Moves t m op x m' y := by
  obtain ⟨p, n⟩ := x
  cases p with
  | idle =>
    cases hc
    cases hx : start n op with
    | error e => simp [hx, Except.map] at hf
    | ok z =>
      simp only [hx, Except.map, Except.ok.injEq, Prod.mk.injEq] at hf
      obtain ⟨rfl, rfl⟩ := hf
      exact .start hx
  | askHolder => cases hc; cases hf; exact .askHolder
  | askDepth => cases hc; cases hf; exact .askDepth
  | lockCheck held =>
    cases hc
    obtain ⟨hok, rfl, rfl⟩ := check_ok hf
    exact .lockCheck (of_decide_eq_true hok)
  | test =>
    cases hc
    simp only [Except.ok.injEq] at hf
    split at hf
    · next ha => cases hf; exact .take ha
    · next ha => cases hf; exact .refuse (Bool.eq_false_iff.mpr ha)
  | taken => cases hc; cases hf; exact .taken
  | load => cases hc; cases hf; exact .load
  | store d => cases hc; cases hf; exact .store
  | assertHolder =>
    cases hc
    obtain ⟨hok, rfl, rfl⟩ := check_ok hf
    exact .assertHolder (of_decide_eq_true hok)
  | assertDepth =>
    cases hc
    obtain ⟨hok, rfl, rfl⟩ := check_ok hf
    exact .assertDepth (of_decide_eq_true hok)
  | unload => cases hc; cases hf; exact .unload
  | unstore d => cases hc; cases hf; exact .unstore
  | testDepth =>
    cases hc
    simp only [Except.ok.injEq, Prod.mk.injEq] at hf
    obtain ⟨rfl, rfl⟩ := hf
    split
    · next h0 => exact .last h0
    · next h0 => exact .inner h0
  | releaseCheck =>
    cases hc
    obtain ⟨hok, rfl, rfl⟩ := check_ok hf
    exact .releaseCheck (of_decide_eq_true hok)
  | free => cases hc; cases hf; exact .free
  | clear => cases hc; cases hf; exact .clear
  | _ => cases hc

theorem disciplined : Disciplined (program (T := T)) spins asleep := by
  constructor
  · intro x f op t m m' y hc hf
    cases act_moves hc hf with
    | start h => obtain ⟨-, rfl⟩ | ⟨-, -, rfl⟩ := start_ok h <;> simp [asleep, spins]
    | askHolder => split <;> simp [asleep, spins]
    | askDepth => split <;> simp [asleep, spins]
    | _ => simp [asleep, spins]
  · rintro ⟨p, n⟩ k y hc
    cases p <;> cases hc <;> simp [asleep, spins]
  · rintro ⟨p, n⟩ k y hc
    cases p <;> cases hc <;> simp [asleep, spins]
  · rintro ⟨p, n⟩ k y hc
    cases p <;> cases hc
    simp [asleep, spins]
  · rintro ⟨p, n⟩ k y hc
    cases p <;> cases hc
    simp [asleep, spins]
  · rintro ⟨p, n⟩ k y hc
    cases p <;> cases hc
  · rintro ⟨p, n⟩ k hx
    cases p <;> simp_all [asleep, spins, program, woken]

section Counting

variable {m m' : Mem T} {place : T → Place} {t u : T} {x y : Place} {op : Op}

omit [DecidableEq T] in
theorem engaged_of_holds (h : holds x = true) : engaged x = true := by
  unfold engaged
  split <;> first | rfl | exact h

omit [DecidableEq T] in
/-- Whoever is not engaged does not mind the depth. -/
theorem fits_of_idle {d d' : UInt32} (he : engaged x = false) (hf : Fits x d) : Fits x d' := by
  obtain ⟨p, n⟩ := x
  cases p with
  | idle => exact fun hn => by simp [engaged, holds, hn] at he
  | askHolder => exact ⟨hf.1, fun hn => by simp [engaged, holds, hn] at he⟩
  | lockCheck held => exact hf
  | lockSpin => exact hf
  | test => exact hf
  | sleep => exact hf
  | asleep => exact hf
  | woken => exact hf
  | wake => exact hf
  | releaseDone => exact hf
  | _ => simp [engaged, holds] at he

/-- One thread goes on, and nothing about the lock changes. -/
theorem Counted.keep (h : Counted m place) (hholder : m'.holder = m.holder) (havailable : m'.available = m.available)
    (hengaged : engaged y = engaged (place t)) (hholds : holds y = holds (place t))
    (hclear : engaged y = true → (place t).point ≠ .clear ∧ y.point ≠ .clear) (hfits : Fits y m'.depth)
    (hdepth : m'.depth = m.depth ∨ engaged (place t) = true) : Counted m' (update place t y) := by
  have hsame : ∀ v, engaged (update place t y v) = engaged (place v) := by
    intro v
    by_cases hv : v = t
    · rw [hv, update_self, hengaged]
    · rw [update_of_ne hv]
  refine ⟨?_, ?_, ?_, ?_, ?_, ?_⟩
  · intro v
    rw [hholder, h.holder]
    by_cases hv : v = t
    · rw [hv, update_self, hholds]
    · rw [update_of_ne hv]
  · intro v w hv hw
    rw [hsame] at hv hw
    exact h.single v w hv hw
  · intro ha v hv
    rw [hsame] at hv
    have hpoint := h.available (havailable ▸ ha) v hv
    by_cases hvt : v = t
    · subst hvt
      rw [hengaged] at hclear
      exact absurd hpoint (hclear hv).1
    · rwa [update_of_ne hvt]
  · intro ha
    obtain ⟨v, hv, hpoint⟩ := h.somebody (havailable ▸ ha)
    refine ⟨v, by rw [hsame, hv], ?_⟩
    by_cases hvt : v = t
    · subst hvt
      rw [update_self]
      exact (hclear (by rw [hengaged, hv])).2
    · rwa [update_of_ne hvt]
  · intro v
    by_cases hv : v = t
    · rw [hv, update_self]
      exact hfits
    · rw [update_of_ne hv]
      obtain hd | ht := hdepth
      · rw [hd]
        exact h.fits v
      · cases he : engaged (place v) with
        | false => exact fits_of_idle he (h.fits v)
        | true => exact absurd (h.single v t he ht) hv
  · intro hall
    obtain hd | ht := hdepth
    · rw [hd]
      exact h.idle (fun v => by rw [← hsame, hall])
    · have hno := hall t
      rw [hsame, ht] at hno
      cases hno

/-- The thread that finds the lock available is the only one to do so. -/
theorem Counted.take (h : Counted m place) {n : ℕ} (hp : place t = ⟨.test, n⟩) (ha : m.available = true)
    (hspin : ∀ u, spins (place u) () = true → u = t) :
    Counted { m with available := false } (update place t ⟨.taken, n⟩) := by
  have hfree : ∀ v, engaged (place v) = false := by
    intro v
    cases he : engaged (place v) with
    | false => rfl
    | true =>
      have hpoint := h.available ha v he
      have hvt := hspin v (by simp [spins, hpoint])
      rw [hvt, hp] at hpoint
      cases hpoint
  have honly : ∀ v, engaged (update place t ⟨.taken, n⟩ v) = true → v = t := by
    intro v hv
    by_contra hvt
    rw [update_of_ne hvt, hfree] at hv
    cases hv
  have hdepth := h.idle hfree
  refine ⟨?_, ?_, ?_, ?_, ?_, ?_⟩
  · intro v
    by_cases hv : v = t
    · subst hv
      have hno := h.holder v
      rw [hp] at hno
      simpa [holds] using hno
    · rw [update_of_ne hv]
      exact h.holder v
  · intro v w hv hw
    rw [honly v hv, honly w hw]
  · intro hav
    cases hav
  · intro _
    refine ⟨t, ?_⟩
    simp [engaged]
  · intro v
    by_cases hv : v = t
    · have hn : n = 0 := by
        have hfits := h.fits t
        rw [hp] at hfits
        exact hfits
      rw [hv, update_self]
      exact ⟨hn, hdepth⟩
    · rw [update_of_ne hv]
      exact h.fits v
  · intro _
    exact hdepth

theorem Counted.taken (h : Counted m place) {n : ℕ} (hp : place t = ⟨.taken, n⟩) :
    Counted { m with holder := some t } (update place t ⟨.lockDone, n⟩) := by
  have ht : engaged (place t) = true := by rw [hp]; rfl
  have hsame : ∀ v, engaged (update place t ⟨.lockDone, n⟩ v) = engaged (place v) := by
    intro v
    by_cases hv : v = t
    · rw [hv, update_self, ht]
      rfl
    · rw [update_of_ne hv]
  refine ⟨?_, ?_, ?_, ?_, ?_, ?_⟩
  · intro v
    by_cases hv : v = t
    · subst hv
      simp [holds]
    · have hno : holds (place v) ≠ true := fun hh => hv (h.single v t (engaged_of_holds hh) ht)
      simp [update_of_ne hv, hno, Ne.symm hv]
  · intro v w hv hw
    rw [hsame] at hv hw
    exact h.single v w hv hw
  · intro ha
    have hpoint := h.available ha t ht
    rw [hp] at hpoint
    cases hpoint
  · intro _
    refine ⟨t, ?_⟩
    simp [engaged, holds]
  · intro v
    by_cases hv : v = t
    · have hfits := h.fits t
      rw [hp] at hfits
      rw [hv, update_self]
      exact hfits
    · rw [update_of_ne hv]
      exact h.fits v
  · intro hall
    have hno := hall t
    rw [hsame, ht] at hno
    cases hno

theorem Counted.free (h : Counted m place) {n : ℕ} (hp : place t = ⟨.free, n⟩) :
    Counted { m with available := true } (update place t ⟨.clear, n⟩) := by
  have ht : engaged (place t) = true := by rw [hp]; rfl
  have hsame : ∀ v, engaged (update place t ⟨.clear, n⟩ v) = engaged (place v) := by
    intro v
    by_cases hv : v = t
    · rw [hv, update_self, ht]
      rfl
    · rw [update_of_ne hv]
  refine ⟨?_, ?_, ?_, ?_, ?_, ?_⟩
  · intro v
    rw [h.holder]
    by_cases hv : v = t
    · rw [hv, update_self, hp]
      simp [holds]
    · rw [update_of_ne hv]
  · intro v w hv hw
    rw [hsame] at hv hw
    exact h.single v w hv hw
  · intro _ v hv
    rw [hsame] at hv
    rw [h.single v t hv ht, update_self]
  · intro ha
    cases ha
  · intro v
    by_cases hv : v = t
    · have hfits := h.fits t
      rw [hp] at hfits
      rw [hv, update_self]
      exact hfits
    · rw [update_of_ne hv]
      exact h.fits v
  · intro hall
    have hno := hall t
    rw [hsame, ht] at hno
    cases hno

/-- The holder has gone, and nobody else is engaged. -/
theorem Counted.clear (h : Counted m place) {n : ℕ} (hp : place t = ⟨.clear, n⟩) :
    Counted { m with holder := none } (update place t ⟨.wake, n⟩) := by
  have ht : engaged (place t) = true := by rw [hp]; rfl
  have hfree : ∀ v, engaged (update place t ⟨.wake, n⟩ v) = false := by
    intro v
    by_cases hv : v = t
    · rw [hv, update_self]
      rfl
    · rw [update_of_ne hv]
      cases he : engaged (place v) with
      | false => rfl
      | true => exact absurd (h.single v t he ht) hv
  have hfits := h.fits t
  rw [hp] at hfits
  refine ⟨?_, ?_, ?_, ?_, ?_, ?_⟩
  · intro v
    have hno : holds (update place t ⟨.wake, n⟩ v) ≠ true := by
      intro hh
      have he := engaged_of_holds hh
      rw [hfree] at he
      cases he
    simp [hno]
  · intro v w hv
    rw [hfree] at hv
    cases hv
  · intro _ v hv
    rw [hfree] at hv
    cases hv
  · intro ha
    obtain ⟨v, hv, hpoint⟩ := h.somebody ha
    rw [h.single v t hv ht, hp] at hpoint
    exact absurd rfl hpoint
  · intro v
    by_cases hv : v = t
    · rw [hv, update_self]
      exact hfits.1
    · rw [update_of_ne hv]
      exact h.fits v
  · intro _
    exact hfits.2

/-- Nobody begins to take the lock for the 2^32-nd time. -/
def Shallow (x : Place) (op : Op) : Prop := x.point = .idle → op = .acquire → x.nesting+1 < 2^32

theorem start_counted (h : Counted m place) {n : ℕ} (hp : place t = ⟨.idle, n⟩) (hs : Shallow ⟨.idle, n⟩ op)
    (hy : start n op = .ok y) : Counted m (update place t y) := by
  have hfits := h.fits t
  rw [hp] at hfits
  obtain ⟨hop, rfl⟩ | ⟨-, hn, rfl⟩ := start_ok hy
  · refine h.keep rfl rfl ?_ ?_ ?_ ⟨hs rfl hop, hfits⟩ (.inl rfl)
    · rw [hp]
      rfl
    · rw [hp]
      rfl
    · simp [hp]
  · refine h.keep rfl rfl ?_ ?_ ?_ ⟨hn, hfits hn⟩ (.inl rfl)
    · simp [hp, engaged, holds, hn]
    · simp [hp, holds, hn]
    · simp [hp]

theorem askHolder_counted (h : Counted m place) {n : ℕ} (hp : place t = ⟨.askHolder, n⟩) :
    Counted m (update place t ⟨if m.holder = some t then .askDepth else .lockCheck false, n⟩) := by
  have hfits := h.fits t
  have hholder := h.holder t
  rw [hp] at hfits hholder
  have hn : m.holder = some t ↔ 0 < n := by simpa [holds] using hholder
  by_cases hh : m.holder = some t
  · have hpos := hn.mp hh
    rw [if_pos hh]
    refine h.keep rfl rfl ?_ ?_ ?_ ⟨hfits.1, hpos, hfits.2 hpos⟩ (.inl rfl)
    · simp [hp, engaged, holds, hpos]
    · simp [hp, holds, hpos]
    · simp [hp]
  · have hzero : n = 0 := by
      rw [hn] at hh
      omega
    rw [if_neg hh]
    refine h.keep rfl rfl ?_ ?_ ?_ ⟨rfl, hzero⟩ (.inl rfl)
    · simp [hp, engaged, holds, hzero]
    · simp [hp, holds, hzero]
    · simp [hp]

theorem inner_fits {n : ℕ} {d : UInt32} (hd : d ≠ 0) (hfits : d.toNat+1 = n) : 1 < n ∧ d.toNat = n-1 := by
  have hpos : d.toNat ≠ 0 := fun h0 => hd (UInt32.toNat_inj.mp h0)
  omega

/-- The steps between two operations on the spinlock. -/
theorem moves_counted (h : Counted m place) (hs : Shallow (place t) op) (hm : Moves t m op x m' y)
    (hp : place t = x) (hspin : spins x () = true → ∀ u, spins (place u) () = true → u = t) :
    Counted m' (update place t y) := by
  have hfits := h.fits t
  rw [hp] at hfits hs
  cases hm with
  | start hy => exact start_counted h hp hs hy
  | askHolder => exact askHolder_counted h hp
  | askDepth =>
    obtain ⟨hlt, hpos, hdepth⟩ := hfits
    have hd : m.depth ≠ 0 := by
      intro h0
      rw [h0] at hdepth
      exact absurd hdepth hpos.ne
    rw [if_neg hd]
    exact h.keep rfl rfl (by rw [hp]; rfl) (by rw [hp]; rfl) (by simp [hp]) ⟨hlt, hdepth⟩ (.inl rfl)
  | lockCheck _ =>
    exact h.keep rfl rfl (by rw [hp]; rfl) (by rw [hp]; rfl) (by simp [hp]) hfits.2 (.inl rfl)
  | take ha => exact h.take hp ha (hspin rfl)
  | refuse _ => exact h.keep rfl rfl (by rw [hp]; rfl) (by rw [hp]; rfl) (by simp [hp]) hfits (.inl rfl)
  | taken => exact h.taken hp
  | load =>
    exact h.keep rfl rfl (by rw [hp]; rfl) (by rw [hp]; rfl) (by simp [hp]) ⟨hfits.1, hfits.2, rfl⟩ (.inl rfl)
  | @store d n =>
    obtain ⟨hlt, hdepth, rfl⟩ := hfits
    have hsum : (m.depth+1).toNat = n+1 := by
      rw [UInt32.toNat_add, hdepth]
      exact Nat.mod_eq_of_lt hlt
    refine h.keep rfl rfl ?_ ?_ (by simp [hp]) (fun _ => hsum) (.inr (by rw [hp]; rfl))
    · simp [hp, engaged, holds]
    · simp [hp, holds]
  | assertHolder _ => exact h.keep rfl rfl (by rw [hp]; rfl) (by rw [hp]; rfl) (by simp [hp]) hfits (.inl rfl)
  | assertDepth _ => exact h.keep rfl rfl (by rw [hp]; rfl) (by rw [hp]; rfl) (by simp [hp]) hfits (.inl rfl)
  | unload =>
    exact h.keep rfl rfl (by rw [hp]; rfl) (by rw [hp]; rfl) (by simp [hp]) ⟨hfits.1, hfits.2, rfl⟩ (.inl rfl)
  | @unstore d n =>
    obtain ⟨hpos, hdepth, rfl⟩ := hfits
    have hone : (1 : UInt32) ≤ m.depth := by
      rw [UInt32.le_iff_toNat_le]
      exact hdepth ▸ hpos
    have hsub : (m.depth-1).toNat+1 = n := by
      rw [UInt32.toNat_sub_of_le _ _ hone, hdepth]
      exact Nat.sub_add_cancel hpos
    exact h.keep rfl rfl (by rw [hp]; rfl) (by rw [hp]; rfl) (by simp [hp]) hsub (.inr (by rw [hp]; rfl))
  | @last n h0 =>
    have hone : n = 1 := by
      rw [h0] at hfits
      exact hfits.symm
    exact h.keep rfl rfl (by rw [hp]; rfl) (by rw [hp]; rfl) (by simp [hp]) ⟨hone, h0⟩ (.inl rfl)
  | @inner n h0 =>
    obtain ⟨hn, hdepth⟩ := inner_fits (n := n) h0 hfits
    have hpos : 0 < n-1 := by omega
    refine h.keep rfl rfl ?_ ?_ (by simp [hp]) (fun _ => hdepth) (.inl rfl)
    · simp [hp, engaged, holds, hpos]
    · simp [hp, holds, hpos]
  | releaseCheck _ => exact h.keep rfl rfl (by rw [hp]; rfl) (by rw [hp]; rfl) (by simp [hp]) hfits (.inl rfl)
  | free => exact h.free hp
  | clear => exact h.clear hp

end Counting

variable {s s' : Kernel T} {t : T} {op : Op}

structure Nested (s : Kernel T) : Prop where
  sound : Sound spins asleep s
  counted : Counted s.mem s.place

omit [DecidableEq T] in
theorem woken_same (x : Place) : holds (woken x) = holds x ∧ engaged (woken x) = engaged x ∧
    ((woken x).point = .clear ↔ x.point = .clear) ∧ ∀ d, Fits x d → Fits (woken x) d := by
  obtain ⟨p, n⟩ := x
  cases p <;> exact ⟨rfl, rfl, by simp [woken], fun _ hf => hf⟩

/-- A wakeup does not matter to the lock. -/
theorem Counted.woken {m : Mem T} {place : T → Place} (h : Counted m place) (u : T) :
    Counted m (update place u (Biglock.woken (place u))) := by
  obtain ⟨hholds, hengaged, hpoint, hfits⟩ := woken_same (place u)
  have hsame : ∀ v, engaged (update place u (Biglock.woken (place u)) v) = engaged (place v) := by
    intro v
    by_cases hv : v = u
    · rw [hv, update_self, hengaged]
    · rw [update_of_ne hv]
  have hclear : ∀ v, (update place u (Biglock.woken (place u)) v).point = .clear ↔ (place v).point = .clear := by
    intro v
    by_cases hv : v = u
    · rw [hv, update_self, hpoint]
    · rw [update_of_ne hv]
  refine ⟨?_, ?_, ?_, ?_, ?_, ?_⟩
  · intro v
    rw [h.holder]
    by_cases hv : v = u
    · rw [hv, update_self, hholds]
    · rw [update_of_ne hv]
  · intro v w hv hw
    rw [hsame] at hv hw
    exact h.single v w hv hw
  · intro ha v hv
    rw [hsame] at hv
    exact (hclear v).mpr (h.available ha v hv)
  · intro ha
    obtain ⟨v, hv, hne⟩ := h.somebody ha
    exact ⟨v, by rw [hsame, hv], fun hc => hne ((hclear v).mp hc)⟩
  · intro v
    by_cases hv : v = u
    · rw [hv, update_self]
      exact hfits _ (h.fits u)
    · rw [update_of_ne hv]
      exact h.fits v
  · intro hall
    exact h.idle (fun v => by rw [← hsame, hall])

/-- The operations on the spinlock and its channel. -/
theorem Counted.pass {m : Mem T} {place : T → Place} {x y : Place} (h : Counted m place) (hp : place t = x)
    (hengaged : engaged y = engaged x) (hholds : holds y = holds x) (hclear : x.point ≠ .clear ∧ y.point ≠ .clear)
    (hfits : Fits x m.depth → Fits y m.depth) : Counted m (update place t y) := by
  subst hp
  exact h.keep rfl rfl hengaged hholds (fun _ => hclear) (hfits (h.fits t)) (.inl rfl)

theorem effect_counted (h : Nested s) (hg : Shallow (s.place t) op) (he : Effect program t op s s') :
    Counted s'.mem s'.place := by
  cases he with
  | act hc hf =>
    refine moves_counted h.counted hg (act_moves hc hf) rfl ?_
    intro ht u hu
    exact h.sound.spin_unique hu ht
  | spinAcquire hc hk =>
    cases hx : s.place t with
    | mk p n =>
      rw [hx] at hc
      cases p <;> cases hc <;> exact h.counted.pass hx rfl rfl (by simp) (fun hf => hf)
  | spinRelease hc hk =>
    cases hx : s.place t with
    | mk p n =>
      rw [hx] at hc
      cases p with
      | lockDone =>
        cases hc
        refine h.counted.pass hx rfl rfl (by simp) ?_
        rintro ⟨hn, hd⟩
        have hzero : n = 0 := hn
        subst hzero
        rw [hd]
        exact ⟨by decide, rfl⟩
      | releaseDone =>
        cases hc
        have hfits := h.counted.fits t
        rw [hx] at hfits
        have hone : n = 1 := hfits
        subst hone
        exact h.counted.pass hx rfl rfl (by simp) (fun _ hn => absurd hn (Nat.lt_irrefl 0))
      | _ => cases hc
  | sleep hc hk ho =>
    cases hx : s.place t with
    | mk p n =>
      rw [hx] at hc
      cases p <;> cases hc
      exact h.counted.pass hx rfl rfl (by simp) (fun hf => hf)
  | wakeNone hc hk hq =>
    cases hx : s.place t with
    | mk p n =>
      rw [hx] at hc
      cases p <;> cases hc
      exact h.counted.pass hx rfl rfl (by simp) (fun hf => hf)
  | @wakeOne k x u us hc hk hq =>
    cases hx : s.place t with
    | mk p n =>
      rw [hx] at hc
      cases p <;> cases hc
      have hut : t ≠ u := by
        rintro rfl
        have hasleep := (h.sound.chan () t).mp (by simp [hq])
        rw [hx] at hasleep
        cases hasleep
      exact (h.counted.woken u).pass ((update_of_ne hut _ _).trans hx) rfl rfl (by simp) (fun hf => hf)
  | wakeAll hc hk =>
    cases hx : s.place t with
    | mk p n =>
      rw [hx] at hc
      cases p <;> cases hc

theorem step_nested {a : T × Op} (h : Nested s) (hg : Shallow (s.place a.1) a.2) (hs : step a s = .ok s') :
    Nested s' :=
  have he := step_effect hs
  ⟨effect_sound disciplined h.sound he, effect_counted h hg he⟩

omit [DecidableEq T] in
theorem bootstrap_nested : Nested (bootstrap : Kernel T) := by
  refine ⟨sound_of_idle ?_ ?_ ?_ ?_, ?_, ?_, ?_, ?_, ?_, ?_⟩ <;>
    simp [bootstrap, spins, asleep, engaged, holds, Fits]

/-- What is known between the calls, and while they are made. -/
structure CountsNesting (s : Kernel T) : Prop where
  held : (∀ t, (s.place t).point = .idle) → (s.mem.available = false ↔ 0 < s.mem.depth) ∧
    (s.mem.holder ≠ none ↔ 0 < s.mem.depth)
  depth : (∀ t, (s.place t).point = .idle) → ∀ t, s.mem.holder = some t → s.mem.depth.toNat = (s.place t).nesting
  others : (∀ t, (s.place t).point = .idle) → ∀ t, 0 < (s.place t).nesting → s.mem.holder = some t
  doubt : ∀ t, (s.place t).point ≠ .lockCheck true
  reacquire : ∀ t held, (s.place t).point = .lockCheck held → s.mem.holder ≠ some t

omit [DecidableEq T] in
theorem Nested.quiet (h : Nested s) (hidle : ∀ t, (s.place t).point = .idle) (t : T) :
    (s.mem.holder = some t ↔ 0 < (s.place t).nesting) ∧ (engaged (s.place t) = true ↔ s.mem.holder = some t) ∧
      (s.mem.holder = some t → s.mem.depth.toNat = (s.place t).nesting) := by
  have hfits := h.counted.fits t
  have hholder := h.counted.holder t
  have hpoint := hidle t
  cases hx : s.place t with
  | mk p n =>
    rw [hx] at hfits hholder hpoint
    have hp : p = .idle := hpoint
    subst hp
    have hn : s.mem.holder = some t ↔ 0 < n := by simpa [holds] using hholder
    refine ⟨hn, ?_, fun hh => hfits (hn.mp hh)⟩
    rw [hn]
    simp [engaged, holds]

omit [DecidableEq T] in
theorem Nested.counts (h : Nested s) : CountsNesting s := by
  have hheld : (∀ t, (s.place t).point = .idle) → (s.mem.available = false ↔ 0 < s.mem.depth) ∧
      (s.mem.holder ≠ none ↔ 0 < s.mem.depth) := by
    intro hidle
    have hsome : 0 < s.mem.depth → ∃ t, engaged (s.place t) = true := by
      intro hpos
      by_contra hno
      rw [h.counted.idle (fun t => by simpa using fun he => hno ⟨t, he⟩)] at hpos
      exact absurd hpos (by decide)
    have hdeep : ∀ t, s.mem.holder = some t → 0 < s.mem.depth := by
      intro t ht
      obtain ⟨hn, -, hdepth⟩ := h.quiet hidle t
      rw [UInt32.lt_iff_toNat_lt, hdepth ht]
      exact hn.mp ht
    constructor
    · constructor
      · intro ha
        obtain ⟨t, he, -⟩ := h.counted.somebody ha
        exact hdeep t ((h.quiet hidle t).2.1.mp he)
      · intro hpos
        obtain ⟨t, he⟩ := hsome hpos
        by_contra hav
        have hclear := h.counted.available (by simpa using hav) t he
        rw [hidle t] at hclear
        cases hclear
    · constructor
      · intro hne
        obtain ⟨t, ht⟩ := Option.ne_none_iff_exists'.mp hne
        exact hdeep t ht
      · intro hpos
        obtain ⟨t, he⟩ := hsome hpos
        rw [(h.quiet hidle t).2.1.mp he]
        exact Option.some_ne_none t
  refine ⟨hheld, ?_, ?_, ?_, ?_⟩
  · intro hidle t
    exact (h.quiet hidle t).2.2
  · intro hidle t
    exact (h.quiet hidle t).1.mpr
  · intro t ht
    have hfits := h.counted.fits t
    simp [Fits, ht] at hfits
  · intro t held ht hh
    rw [h.counted.holder] at hh
    simp [holds, ht] at hh

theorem run_counts (as : List (T × Op)) (s : Kernel T)
    (hg : Runs.Guarded step (fun a s => Shallow (s.place a.1) a.2) as bootstrap) (hr : run as bootstrap = .ok s) :
    CountsNesting s :=
  (Runs.guarded_invariant (fun _ _ _ h hg hs => step_nested h hg hs) hg bootstrap_nested hr).counts

instance {x : Place} {op : Op} : Decidable (Shallow x op) := inferInstanceAs (Decidable (_ → _ → _))

/-- Thread 0 takes the lock twice; thread 1 waits for it, and takes it after the second release. -/
def twoThreads : List (Fin 2 × Op) :=
  List.replicate 14 (0, .acquire) ++ List.replicate 6 (1, .acquire) ++ List.replicate 18 (0, .release) ++
    List.replicate 6 (1, .acquire)

theorem twoThreads_counts : ∃ s, run twoThreads bootstrap = .ok s ∧ s.place 0 = ⟨.idle, 0⟩ ∧
    s.place 1 = ⟨.idle, 1⟩ ∧ CountsNesting s := by
  have hg : Runs.Guarded step (fun a s => Shallow (s.place a.1) a.2) twoThreads bootstrap := by decide +kernel
  obtain ⟨s, hr, h0, h1⟩ : ∃ s, run twoThreads bootstrap = .ok s ∧ s.place 0 = ⟨.idle, 0⟩ ∧ s.place 1 = ⟨.idle, 1⟩ := by
    decide +kernel
  exact ⟨s, hr, h0, h1, run_counts twoThreads s hg hr⟩

/-- One thread has the lock, `n` times over. -/
def nested (n : ℕ) : Kernel Unit where
  spin _ := none
  chan _ := []
  place _ := ⟨.idle, n⟩
  mem := ⟨false, some (), UInt32.ofNat n⟩
  now := 1
  since _ := 0

theorem first_nested : run (List.replicate 9 ((), .acquire)) bootstrap = .ok (nested 1) := rfl

theorem again_nested {n : ℕ} (hn : UInt32.ofNat n ≠ 0) :
    run (List.replicate 5 ((), .acquire)) (nested n) = .ok (nested (n+1)) := by
  have hupdate : ∀ x y : Place, update (fun _ : Unit => x) () y = fun _ => y := fun _ _ => rfl
  simp [run, Runs.run, List.replicate, step, Channels.step, program, code, start, Except.map, nested, State.goto,
    hupdate, hn, UInt32.ofNat_add]

theorem deeper_nested (k n : ℕ) (hn : 1 ≤ n) (hk : n+k ≤ 2^32) :
    run (List.replicate k (List.replicate 5 ((), Op.acquire))).flatten (nested n) = .ok (nested (n+k)) := by
  induction k generalizing n with
  | zero => rfl
  | succ k ih =>
    have hne : UInt32.ofNat n ≠ 0 := by
      intro h0
      have hmod := congrArg UInt32.toNat h0
      rw [UInt32.toNat_ofNat_of_lt' (show n < 2^32 by omega)] at hmod
      exact absurd hmod (by simp; omega)
    rw [List.replicate_succ, List.flatten_cons, run, Runs.run_append]
    have hagain := again_nested hne
    rw [run] at hagain
    rw [hagain]
    have hrest := ih (n+1) (by omega) (by omega)
    rw [run] at hrest
    simp only [hrest, Nat.add_right_comm n 1 k, Nat.add_assoc]

/-- The 2^32-nd call makes the depth 0 again, while the lock is held. -/
theorem depth_wraps : ∃ (as : List (Unit × Op)) (s : Kernel Unit), run as bootstrap = .ok s ∧
    (∀ t, (s.place t).point = .idle) ∧ s.mem.available = false ∧ s.mem.depth = 0 ∧ ¬CountsNesting s := by
  have hlast : run (List.replicate (2^32-1) (List.replicate 5 ((), Op.acquire))).flatten (nested 1) =
      .ok (nested (1 + (2^32-1))) := deeper_nested (2^32-1) 1 (Nat.le_refl 1) (by omega)
  refine ⟨List.replicate 9 ((), .acquire) ++ (List.replicate (2^32-1) (List.replicate 5 ((), Op.acquire))).flatten,
    nested (1 + (2^32-1)), ?_, fun _ => rfl, rfl, rfl, ?_⟩
  · rw [run, Runs.run_append]
    have hfirst := first_nested
    rw [run] at hfirst hlast
    rw [hfirst]
    exact hlast
  · intro h
    have hpos := (h.held (fun _ => rfl)).1.mp rfl
    exact absurd hpos (by decide)

end OS161.Biglock
