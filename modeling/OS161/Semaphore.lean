import OS161.Channels
import OS161.Runs

/-!
# Semaphores

`P` and `V` on one semaphore, whose spinlock also protects its wait channel. A
unit that is put back while threads sleep goes to whoever looks first, so a
thread that has been woken may find nothing and sleep again.
-/

set_option autoImplicit false

namespace OS161.Semaphore

open Function OS161.Channels OS161.Vfs

/-- `vs` and `ps` only record how often the counter has gone up and down. -/
structure Sem where
  count : UInt32
  vs : ℕ
  ps : ℕ

inductive Op where
  | P
  | V
  deriving DecidableEq

/-- Where a thread is in `P` or `V`. In `pTest` it looks at the counter, for the
first time or after it has been woken. -/
inductive Place where
  | idle
  | pSpin | pTest (again : Bool) | pSleep | pAsleep | pWoken | pDone
  | vSpin | vInc | vWake | vDone
  deriving DecidableEq

def start : Op → Sem → Except Stop (Sem × Place)
  | .P, m => .ok (m, .pSpin)
  | .V, m => .ok (m, .vSpin)

/-- The head of the loop in `P`, and what follows it. -/
def test (m : Sem) : Except Stop (Sem × Place) :=
  if m.count = 0 then .ok (m, .pSleep)
  else .ok ({ m with count := m.count-1, ps := m.ps+1 }, .pDone)

/-- The counter wraps; `KASSERT(sem->sem_count > 0)` looks at it afterwards. -/
def increment (m : Sem) : Except Stop (Sem × Place) :=
  if m.count+1 = 0 then .error .panic
  else .ok ({ m with count := m.count+1, vs := m.vs+1 }, .vWake)

variable {T : Type}

def code : Place → Instr T Unit Sem Place Op
  | .idle => .act (fun op _ m => start op m)
  | .pSpin => .spinAcquire () (.pTest false)
  | .pTest _ => .act (fun _ _ m => test m)
  | .pSleep => .sleep () .pAsleep
  | .pAsleep => .halt
  -- wchan_sleep takes the spinlock again before it returns
  | .pWoken => .spinAcquire () (.pTest true)
  | .pDone => .spinRelease () .idle
  | .vSpin => .spinAcquire () .vInc
  | .vInc => .act (fun _ _ m => increment m)
  | .vWake => .wakeOne () .vDone
  | .vDone => .spinRelease () .idle

def woken : Place → Place
  | .pAsleep => .pWoken
  | x => x

def program : Program T Unit Sem Place Op := ⟨code, woken⟩

variable [DecidableEq T]

abbrev step : T × Op → State T Unit Sem Place → Except Stop (State T Unit Sem Place) :=
  Channels.step program

abbrev run : List (T × Op) → State T Unit Sem Place → Except Stop (State T Unit Sem Place) :=
  Runs.run step

def semCreate (c0 : UInt32) : State T Unit Sem Place where
  spin _ := none
  chan _ := []
  place _ := .idle
  mem := ⟨c0, 0, 0⟩
  now := 1
  since _ := 0

def spins : Place → Unit → Bool
  | .pTest _, _ | .pSleep, _ | .pDone, _ | .vInc, _ | .vWake, _ | .vDone, _ => true
  | _, _ => false

def asleep : Place → Option Unit
  | .pAsleep => some ()
  | _ => none

/-- A thread that has been woken and has not looked at the counter again. -/
def unchecked : Place → ℕ
  | .pWoken | .pTest true => 1
  | _ => 0

/-- A `V` between its increment and its wakeup. -/
def waking : Place → ℕ
  | .vWake => 1
  | _ => 0

/-- Everybody who has been woken for a unit or is about to wake somebody for one. -/
def onTheWay (x : Place) : ℕ := unchecked x + waking x

omit [DecidableEq T] in
theorem disciplined : Disciplined (program (T := T)) spins asleep := by
  constructor
  · intro x f l t m m' y hc hf
    cases x with
    | idle =>
      cases hc
      cases l <;> cases hf <;> simp [asleep, spins]
    | pTest again =>
      cases hc
      simp only [test] at hf
      split at hf <;> cases hf <;> simp [asleep, spins]
    | vInc =>
      cases hc
      simp only [increment] at hf
      split at hf <;> cases hf
      simp [asleep, spins]
    | _ => cases hc
  · intro x k y hc
    cases x <;> cases hc <;> simp [asleep, spins]
  · intro x k y hc
    cases x <;> cases hc <;> simp [asleep, spins]
  · intro x k y hc
    cases x <;> cases hc
    simp [asleep, spins]
  · intro x k y hc
    cases x <;> cases hc
    simp [asleep, spins]
  · intro x k y hc
    cases x <;> cases hc
  · intro x k hx
    cases x <;> simp_all [asleep, spins, program, woken]

variable [Fintype T] {c0 : UInt32} {s s' : State T Unit Sem Place} {t : T} {op : Op}

/-- Between two looks at the counter. A thread that is about to sleep has found
it zero, and it still is. -/
structure Accounted (c0 : UInt32) (s : State T Unit Sem Place) : Prop where
  sound : Sound spins asleep s
  counts : s.mem.count.toNat + s.mem.ps = c0.toNat + s.mem.vs
  zero : ∀ t, s.place t = .pSleep → s.mem.count = 0
  woken : s.chan () ≠ [] →
    s.mem.count.toNat ≤ tally onTheWay s.place

/-- A step that leaves the counter and the channel alone. -/
theorem Accounted.goto (h : Accounted c0 s) {x : Place} {spin : Unit → Option T}
    (hs : Sound spins asleep ({ s with spin := spin }.goto t x)) (hx : x = .pSleep → s.mem.count = 0)
    (hw : onTheWay x = onTheWay (s.place t)) :
    Accounted c0 ({ s with spin := spin }.goto t x) := by
  refine ⟨hs, h.counts, ?_, ?_⟩
  · intro u hu
    by_cases hut : u = t
    · subst hut
      exact hx (by simpa [State.goto] using hu)
    · exact h.zero u (by simpa [State.goto, update_of_ne hut] using hu)
  · intro hne
    have hle := h.woken hne
    have hsum := tally_update onTheWay s.place t x
    show s.mem.count.toNat ≤ tally _ (update s.place t x)
    omega

omit [DecidableEq T] in
theorem create_accounted (c0 : UInt32) : Accounted c0 (semCreate c0 : State T Unit Sem Place) := by
  refine ⟨sound_of_idle ?_ ?_ ?_ ?_, rfl, ?_, ?_⟩ <;> simp [semCreate, spins, asleep]

omit [DecidableEq T] in
/-- Only the thread that has the spinlock can be about to sleep. -/
theorem Accounted.no_sleep (h : Accounted c0 s) {u : T} (ht : spins (s.place t) () = true) (hu : u ≠ t) :
    s.place u ≠ .pSleep := by
  intro hp
  exact hu (h.sound.spin_unique (by simp [hp, spins]) ht)

theorem test_accounted (h : Accounted c0 s) {again : Bool} {m : Sem} {x : Place}
    (hp : s.place t = .pTest again) (hf : test s.mem = .ok (m, x))
    (hs : Sound spins asleep ({ s with mem := m }.goto t x)) :
    Accounted c0 ({ s with mem := m }.goto t x) := by
  simp only [test] at hf
  split at hf
  · next hz =>
    cases hf
    refine ⟨hs, h.counts, fun _ _ => hz, ?_⟩
    intro _
    simp [State.goto, hz]
  · next hz =>
    cases hf
    have hpos : 0 < s.mem.count.toNat := by
      rw [Nat.pos_iff_ne_zero]
      exact fun h0 => hz (UInt32.toNat_inj.mp h0)
    have hsub : (s.mem.count-1).toNat = s.mem.count.toNat-1 :=
      UInt32.toNat_sub_of_le _ _ (by rw [UInt32.le_iff_toNat_le]; exact hpos)
    refine ⟨hs, ?_, ?_, ?_⟩
    · have := h.counts
      show (s.mem.count-1).toNat + (s.mem.ps+1) = c0.toNat + s.mem.vs
      omega
    · intro u hu
      by_cases hut : u = t
      · subst hut
        simp [State.goto] at hu
      · exact absurd (by simpa [State.goto, update_of_ne hut] using hu)
          (h.no_sleep (by simp [hp, spins]) hut)
    · intro hne
      have hle := h.woken hne
      have hsum := tally_update onTheWay s.place t .pDone
      have hone : onTheWay (s.place t) ≤ 1 := by
        cases again <;> simp [hp, onTheWay, unchecked, waking]
      show (s.mem.count-1).toNat ≤ tally _ (update s.place t .pDone)
      have : onTheWay .pDone = 0 := rfl
      omega

theorem increment_accounted (h : Accounted c0 s) {m : Sem} {x : Place} (hp : s.place t = .vInc)
    (hf : increment s.mem = .ok (m, x)) (hs : Sound spins asleep ({ s with mem := m }.goto t x)) :
    Accounted c0 ({ s with mem := m }.goto t x) := by
  simp only [increment] at hf
  split at hf
  · cases hf
  · next hz =>
    cases hf
    have hadd : (s.mem.count+1).toNat = s.mem.count.toNat+1 := by
      have hmod : (s.mem.count+1).toNat = (s.mem.count.toNat+1) % 2^32 := UInt32.toNat_add _ _
      have hlt := s.mem.count.toNat_lt
      have hne : (s.mem.count+1).toNat ≠ 0 := fun h0 => hz (UInt32.toNat_inj.mp h0)
      omega
    refine ⟨hs, ?_, ?_, ?_⟩
    · have := h.counts
      show (s.mem.count+1).toNat + s.mem.ps = c0.toNat + (s.mem.vs+1)
      omega
    · intro u hu
      by_cases hut : u = t
      · subst hut
        simp [State.goto] at hu
      · exact absurd (by simpa [State.goto, update_of_ne hut] using hu)
          (h.no_sleep (by simp [hp, spins]) hut)
    · intro hne
      have hle := h.woken hne
      have hsum := tally_update onTheWay s.place t .vWake
      show (s.mem.count+1).toNat ≤ tally _ (update s.place t .vWake)
      rw [hp, show onTheWay .vInc = 0 from rfl, show onTheWay .vWake = 1 from rfl] at hsum
      omega

/-- The `V` that has woken a thread is no longer on the way, but the thread is. -/
theorem wakeOne_accounted (h : Accounted c0 s) {u : T} {us : List T} (hx : s.place t = .vWake)
    (hq : s.chan () = u::us)
    (hs : Sound spins asleep ({ s with
      chan := update s.chan () us
      place := update s.place u (woken (s.place u)) }.goto t .vDone)) :
    Accounted c0 ({ s with
      chan := update s.chan () us
      place := update s.place u (woken (s.place u)) }.goto t .vDone) := by
  have hu : s.place u = .pAsleep := by
    have hasleep := (h.sound.chan () u).mp (by simp [hq])
    cases hp : s.place u <;> simp_all [asleep]
  have hut : t ≠ u := by
    rintro rfl
    simp [hx] at hu
  refine ⟨hs, h.counts, ?_, ?_⟩
  · intro v hv
    by_cases hvt : v = t
    · subst hvt
      simp [State.goto] at hv
    · by_cases hvu : v = u
      · subst hvu
        simp [State.goto, update_of_ne hvt, hu, woken] at hv
      · exact h.zero v (by simpa [State.goto, update_of_ne hvt, update_of_ne hvu] using hv)
  · intro _
    have hle := h.woken (by simp [hq])
    have hone := tally_update onTheWay s.place u .pWoken
    have htwo := tally_update onTheWay (update s.place u .pWoken) t .vDone
    rw [update_of_ne hut, hx] at htwo
    rw [hu] at hone
    simp only [show onTheWay .pAsleep = 0 from rfl, show onTheWay .pWoken = 1 from rfl] at hone
    simp only [show onTheWay .vWake = 1 from rfl, show onTheWay .vDone = 0 from rfl] at htwo
    show s.mem.count.toNat ≤ tally onTheWay (update (update s.place u (woken (s.place u))) t .vDone)
    rw [hu, woken]
    omega

theorem effect_accounted (h : Accounted c0 s) (he : Effect program t op s s') : Accounted c0 s' := by
  have hs := effect_sound disciplined h.sound he
  cases he with
  | act hc hf =>
    cases hx : s.place t with
    | idle =>
      rw [hx] at hc
      cases hc
      cases op <;> cases hf <;> exact h.goto hs (by simp) (by simp [hx, onTheWay, unchecked, waking])
    | pTest again =>
      rw [hx] at hc
      cases hc
      exact test_accounted h hx hf hs
    | vInc =>
      rw [hx] at hc
      cases hc
      exact increment_accounted h hx hf hs
    | _ =>
      rw [hx] at hc
      cases hc
  | spinAcquire hc hk =>
    cases hx : s.place t <;> rw [hx] at hc <;> cases hc <;>
      exact h.goto hs (by simp) (by simp [hx, onTheWay, unchecked, waking])
  | spinRelease hc hk =>
    cases hx : s.place t <;> rw [hx] at hc <;> cases hc <;>
      exact h.goto hs (by simp) (by simp [hx, onTheWay, unchecked, waking])
  | sleep hc hk ho =>
    cases hx : s.place t <;> rw [hx] at hc <;> cases hc
    have hz := h.zero t hx
    exact ⟨hs, h.counts, fun _ _ => hz, fun _ => by simp [State.goto, hz]⟩
  | wakeNone hc hk hq =>
    cases hx : s.place t <;> rw [hx] at hc <;> cases hc
    refine ⟨hs, h.counts, ?_, fun hne => absurd hq hne⟩
    intro u hu
    by_cases hut : u = t
    · subst hut
      simp [State.goto] at hu
    · exact h.zero u (by simpa [State.goto, update_of_ne hut] using hu)
  | @wakeOne k x u us hc hk hq =>
    cases hx : s.place t <;> rw [hx] at hc <;> cases hc
    exact wakeOne_accounted h hx hq hs
  | wakeAll hc hk =>
    cases hx : s.place t <;> rw [hx] at hc <;> cases hc

theorem step_accounted {a : T × Op} (h : Accounted c0 s) (hs : step a s = .ok s') : Accounted c0 s' :=
  effect_accounted h (step_effect hs)

omit [DecidableEq T] in
theorem tally_onTheWay (f : T → Place) :
    tally onTheWay f = tally unchecked f + tally waking f := Finset.sum_add_distrib

/-- A `V` that has not woken anybody yet has the spinlock. -/
theorem waking_spins (x : Place) (hx : waking x ≠ 0) : spins x () = true := by
  cases x <;> simp_all [waking, spins]

/-- The counter is what it was, plus what has been put back, minus what has been
taken; and if somebody sleeps while the spinlock is free, at least as many
threads as there are units have been woken and not looked yet. While the
spinlock is held, a `V` between its increment and its wakeup counts as one more. -/
theorem run_accounts (c0 : UInt32) (as : List (T × Op)) (s : State T Unit Sem Place)
    (hr : run as (semCreate c0) = .ok s) :
    s.mem.count.toNat + s.mem.ps = c0.toNat + s.mem.vs ∧
    (s.spin () = none → s.chan () ≠ [] → s.mem.count.toNat ≤ tally unchecked s.place) ∧
    (s.chan () ≠ [] → s.mem.count.toNat ≤ tally unchecked s.place + tally waking s.place) ∧
    tally waking s.place ≤ 1 := by
  have h : Accounted c0 s :=
    Runs.run_invariant (fun _ _ _ h hs => step_accounted h hs) (create_accounted c0) hr
  refine ⟨h.counts, ?_, ?_, ?_⟩
  · intro hfree hne
    have hle := h.woken hne
    rwa [tally_onTheWay, h.sound.tally_free waking_spins hfree, Nat.add_zero] at hle
  · intro hne
    rw [← tally_onTheWay]
    exact h.woken hne
  · cases hsp : s.spin () with
    | none => rw [h.sound.tally_free waking_spins hsp]; omega
    | some t =>
      rw [h.sound.tally_held waking_spins hsp]
      cases s.place t <;> simp [waking]

/-- Only a `V` at the largest value of the counter fails an assertion. -/
theorem run_panic {as : List (T × Op)} {a : T × Op} (hr : run as (semCreate c0) = .ok s)
    (hs : step a s = .error .panic) : s.place a.1 = .vInc ∧ s.mem.count.toNat = 2^32-1 := by
  have h : Accounted c0 s :=
    Runs.run_invariant (fun _ _ _ h hs => step_accounted h hs) (create_accounted c0) hr
  obtain ⟨f, hc, hf⟩ := step_stops disciplined h.sound hs (by decide)
  cases hx : s.place a.1 with
  | idle =>
    rw [hx] at hc
    cases hc
    cases hop : a.2 <;> simp [hop, start] at hf
  | pTest again =>
    rw [hx] at hc
    cases hc
    simp only [test] at hf
    split at hf <;> cases hf
  | vInc =>
    rw [hx] at hc
    cases hc
    simp only [increment] at hf
    split at hf
    · next hz =>
      have hmod : (s.mem.count+1).toNat = (s.mem.count.toNat+1) % 2^32 := UInt32.toNat_add _ _
      have hlt := s.mem.count.toNat_lt
      rw [hz] at hmod
      refine ⟨rfl, ?_⟩
      have hzero : (0 : UInt32).toNat = 0 := rfl
      omega
    · cases hf
  | _ =>
    rw [hx] at hc
    cases hc

/-- Threads 0 and 1 sleep, thread 2 puts a unit back and wakes thread 0. -/
def oneUnit : List (Fin 3 × Op) :=
  [0, 0, 0, 0, 1, 1, 1, 1].map (·, .P) ++ [2, 2, 2, 2, 2].map (·, .V)

theorem oneUnit_accounts :
    ∃ s, run oneUnit (semCreate 0) = .ok s ∧ s.spin () = none ∧ s.chan () = [1] ∧ s.mem.count = 1 ∧
      s.mem.count.toNat ≤ tally unchecked s.place := by
  obtain ⟨s, hr, hspin, hchan, hcount⟩ : ∃ s, run oneUnit (semCreate 0) = .ok s ∧
      s.spin () = none ∧ s.chan () = [1] ∧ s.mem.count = 1 := by decide +kernel
  exact ⟨s, hr, hspin, hchan, hcount, (run_accounts 0 oneUnit s hr).2.1 hspin (by simp [hchan])⟩

end OS161.Semaphore
