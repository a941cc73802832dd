import Mathlib.Algebra.BigOperators.Group.Finset.Basic
import Mathlib.Algebra.Order.BigOperators.Group.Finset
import Mathlib.Data.Fintype.Basic
import Mathlib.Data.List.Nodup
import Mathlib.Logic.Function.Basic
import OS161.Vfs

/-!
# Threads, spinlocks and wait channels

Threads run a program given as a table of instructions. Every wait channel is
protected by a spinlock of the same index. A thread puts itself on a channel
and lets go of its spinlock in one step; another thread takes it off again, in
the order of arrival. If the table keeps the discipline of the spinlocks, which
threads hold one and which are on a channel can be read off from where they
are.
-/

set_option autoImplicit false

namespace OS161.Channels

open Function OS161.Vfs

/-- `act` is whatever the thread does to the memory between these operations,
with the label of the step. A thread whose instruction is `halt` is asleep. -/
inductive Instr (T K M X L : Type) where
  | act (f : L → T → M → Except Stop (M × X))
  | spinAcquire (k : K) (next : X)
  | spinRelease (k : K) (next : X)
  | sleep (k : K) (next : X)
  | wakeOne (k : K) (next : X)
  | wakeAll (k : K) (next : X)
  | halt

structure Program (T K M X L : Type) where
  code : X → Instr T K M X L
  wake : X → X

/-- `now` and `since` only record the past: how often a thread has gone to
sleep, and when each one has done so last. -/
structure State (T K M X : Type) where
  spin : K → Option T
  chan : K → List T
  place : T → X
  mem : M
  now : ℕ
  since : T → ℕ

variable {T K M X L : Type} [DecidableEq T] [DecidableEq K]

def State.goto (s : State T K M X) (t : T) (x : X) : State T K M X :=
  { s with place := update s.place t x }

/-- `wchan_wakeone`: the thread at the head of the channel, if there is one. -/
def wakeOne (p : Program T K M X L) (k : K) (s : State T K M X) : State T K M X :=
  match s.chan k with
  | [] => s
  | u::us => { s with chan := update s.chan k us, place := update s.place u (p.wake (s.place u)) }

def wakeAll (p : Program T K M X L) (k : K) (s : State T K M X) : State T K M X :=
  { s with
    chan := update s.chan k []
    place := fun u => if u ∈ s.chan k then p.wake (s.place u) else s.place u }

/-- One step of thread `t`. A thread that sleeps must hold the spinlock of the
channel and no other one. -/
def step [Fintype K] (p : Program T K M X L) (a : T × L) (s : State T K M X) :
    Except Stop (State T K M X) :=
  match p.code (s.place a.1) with
  | .act f => match f a.2 a.1 s.mem with
    | .error e => .error e
    | .ok (m, x) => .ok ({ s with mem := m }.goto a.1 x)
  | .spinAcquire k x =>
    if s.spin k = none then .ok ({ s with spin := update s.spin k (some a.1) }.goto a.1 x)
    else if s.spin k = some a.1 then .error .panic
    else .error .blocked
  | .spinRelease k x =>
    if s.spin k = some a.1 then .ok ({ s with spin := update s.spin k none }.goto a.1 x)
    else .error .panic
  | .sleep k x =>
    if s.spin k = some a.1 ∧ ∀ j, j ≠ k → s.spin j ≠ some a.1 then
      .ok ({ s with
        spin := update s.spin k none
        chan := update s.chan k (s.chan k ++ [a.1])
        now := s.now+1
        since := update s.since a.1 s.now }.goto a.1 x)
    else .error .panic
  | .wakeOne k x =>
    if s.spin k = some a.1 then .ok ((wakeOne p k s).goto a.1 x) else .error .panic
  | .wakeAll k x =>
    if s.spin k = some a.1 then .ok ((wakeAll p k s).goto a.1 x) else .error .panic
  | .halt => .error .blocked

/-- Everything a step can do. -/
inductive Effect (p : Program T K M X L) (t : T) (l : L) (s : State T K M X) : State T K M X → Prop where
  | act {f m x} (hc : p.code (s.place t) = .act f) (hf : f l t s.mem = .ok (m, x)) :
      Effect p t l s ({ s with mem := m }.goto t x)
  | spinAcquire {k x} (hc : p.code (s.place t) = .spinAcquire k x) (hk : s.spin k = none) :
      Effect p t l s ({ s with spin := update s.spin k (some t) }.goto t x)
  | spinRelease {k x} (hc : p.code (s.place t) = .spinRelease k x) (hk : s.spin k = some t) :
      Effect p t l s ({ s with spin := update s.spin k none }.goto t x)
  | sleep {k x} (hc : p.code (s.place t) = .sleep k x) (hk : s.spin k = some t)
      (ho : ∀ j, j ≠ k → s.spin j ≠ some t) :
      Effect p t l s ({ s with
        spin := update s.spin k none
        chan := update s.chan k (s.chan k ++ [t])
        now := s.now+1
        since := update s.since t s.now }.goto t x)
  | wakeNone {k x} (hc : p.code (s.place t) = .wakeOne k x) (hk : s.spin k = some t)
      (hq : s.chan k = []) : Effect p t l s (s.goto t x)
  | wakeOne {k x u us} (hc : p.code (s.place t) = .wakeOne k x) (hk : s.spin k = some t)
      (hq : s.chan k = u::us) :
      Effect p t l s ({ s with
        chan := update s.chan k us
        place := update s.place u (p.wake (s.place u)) }.goto t x)
  | wakeAll {k x} (hc : p.code (s.place t) = .wakeAll k x) (hk : s.spin k = some t) :
      Effect p t l s ((wakeAll p k s).goto t x)

variable {p : Program T K M X L} {s s' : State T K M X} {t : T} {l : L}

theorem step_effect [Fintype K] (hs : step p (t, l) s = .ok s') : Effect p t l s s' := by
  simp only [step] at hs
  split at hs
  · next f hc =>
    split at hs
    · cases hs
    · next m x hf =>
      cases hs
      exact .act hc hf
  · next k x hc =>
    split at hs
    · next hk =>
      cases hs
      exact .spinAcquire hc hk
    · split at hs <;> cases hs
  · next k x hc =>
    split at hs
    · next hk =>
      cases hs
      exact .spinRelease hc hk
    · cases hs
  · next k x hc =>
    split at hs
    · next hk =>
      cases hs
      exact .sleep hc hk.1 hk.2
    · cases hs
  · next k x hc =>
    split at hs
    · next hk =>
      cases hs
      cases hq : s.chan k with
      | nil =>
        simp only [wakeOne, hq]
        exact .wakeNone hc hk hq
      | cons u us =>
        simp only [wakeOne, hq]
        exact .wakeOne hc hk hq
    · cases hs
  · next k x hc =>
    split at hs
    · next hk =>
      cases hs
      exact .wakeAll hc hk
    · cases hs
  · cases hs

/-- Which spinlocks a thread holds and on which channel it is, by where it is,
agrees with what the instructions do. -/
structure Disciplined (p : Program T K M X L) (spins : X → K → Bool) (asleep : X → Option K) : Prop where
  act : ∀ x f l t m m' y, p.code x = .act f → f l t m = .ok (m', y) →
    asleep x = none ∧ asleep y = none ∧ ∀ j, spins y j = spins x j
  spinAcquire : ∀ x k y, p.code x = .spinAcquire k y →
    asleep x = none ∧ asleep y = none ∧ spins x k = false ∧
      ∀ j, spins y j = (spins x j || decide (j = k))
  spinRelease : ∀ x k y, p.code x = .spinRelease k y →
    asleep x = none ∧ asleep y = none ∧ spins x k = true ∧ ∀ j, spins y j = (spins x j && decide (j ≠ k))
  sleep : ∀ x k y, p.code x = .sleep k y →
    asleep x = none ∧ asleep y = some k ∧ (∀ j, spins x j = decide (j = k)) ∧ ∀ j, spins y j = false
  wakeOne : ∀ x k y, p.code x = .wakeOne k y →
    asleep x = none ∧ asleep y = none ∧ spins x k = true ∧ ∀ j, spins y j = spins x j
  wakeAll : ∀ x k y, p.code x = .wakeAll k y →
    asleep x = none ∧ asleep y = none ∧ spins x k = true ∧ ∀ j, spins y j = spins x j
  wake : ∀ x k, asleep x = some k → asleep (p.wake x) = none ∧ ∀ j, spins (p.wake x) j = spins x j

/-- The channels in the order of arrival. -/
structure Sound (spins : X → K → Bool) (asleep : X → Option K) (s : State T K M X) : Prop where
  spin : ∀ k t, s.spin k = some t ↔ spins (s.place t) k = true
  chan : ∀ k t, t ∈ s.chan k ↔ asleep (s.place t) = some k
  order : ∀ k, (s.chan k).Pairwise (fun a b => s.since a < s.since b)
  past : ∀ t, s.since t < s.now

variable {spins : X → K → Bool} {asleep : X → Option K}

section Facts

omit [DecidableEq T] [DecidableEq K]

theorem Sound.nodup (h : Sound spins asleep s) (k : K) : (s.chan k).Nodup :=
  (h.order k).imp (fun hab => by
    rintro rfl
    exact lt_irrefl _ hab)

/-- Nobody holds a spinlock and nobody sleeps. -/
theorem sound_of_idle (hspin : ∀ k, s.spin k = none) (hchan : ∀ k, s.chan k = [])
    (hplace : ∀ t, (∀ k, spins (s.place t) k = false) ∧ asleep (s.place t) = none)
    (hpast : ∀ t, s.since t < s.now) : Sound spins asleep s := by
  refine ⟨?_, ?_, ?_, hpast⟩
  · intro k t
    simp [hspin k, (hplace t).1 k]
  · intro k t
    simp [hchan k, (hplace t).2]
  · intro k
    simp [hchan k]

/-- A spinlock has one holder. -/
theorem Sound.spin_unique (h : Sound spins asleep s) {k : K} {u : T} (ht : spins (s.place t) k = true)
    (hu : spins (s.place u) k = true) : t = u :=
  Option.some.inj (((h.spin k t).mpr ht).symm.trans ((h.spin k u).mpr hu))

theorem Sound.awake (h : Sound spins asleep s) (ht : asleep (s.place t) = none) (k : K) :
    t ∉ s.chan k := by
  rw [h.chan, ht]
  simp

end Facts

omit [DecidableEq K] in
/-- A thread that is awake goes on, and takes or lets go of one spinlock at most. -/
theorem Sound.goto_spin (h : Sound spins asleep s) {x : X} {spin : K → Option T} {m : M}
    (ha : asleep (s.place t) = none) (hx : asleep x = none)
    (hspin : ∀ k, (spin k = some t ↔ spins x k = true) ∧
      ∀ u, u ≠ t → (spin k = some u ↔ s.spin k = some u)) :
    Sound spins asleep ({ s with spin := spin, mem := m }.goto t x) := by
  refine ⟨?_, ?_, h.order, h.past⟩
  · intro k u
    by_cases hu : u = t
    · subst hu
      simpa [State.goto] using (hspin k).1
    · simpa [State.goto, update_of_ne hu, ← h.spin k u] using (hspin k).2 u hu
  · intro k u
    by_cases hu : u = t
    · subst hu
      simpa [State.goto, hx] using h.awake ha k
    · simpa [State.goto, update_of_ne hu] using h.chan k u

omit [DecidableEq K] in
theorem Sound.goto (h : Sound spins asleep s) {x : X} {m : M} (ha : asleep (s.place t) = none)
    (hx : asleep x = none) (hs : ∀ k, spins x k = spins (s.place t) k) :
    Sound spins asleep ({ s with mem := m }.goto t x) :=
  h.goto_spin ha hx (fun k => ⟨by rw [hs k]; exact h.spin k t, fun _ _ => Iff.rfl⟩)

/-- Sleepers are taken off a channel. -/
theorem Sound.woken (h : Sound spins asleep s) (hp : Disciplined p spins asleep) (k : K) (us : List T)
    (place : T → X) (hsub : us.Sublist (s.chan k))
    (hplace : ∀ u, place u = if u ∈ s.chan k ∧ u ∉ us then p.wake (s.place u) else s.place u) :
    Sound spins asleep { s with chan := update s.chan k us, place := place } := by
  have hwake : ∀ u, u ∈ s.chan k → asleep (p.wake (s.place u)) = none ∧
      ∀ j, spins (p.wake (s.place u)) j = spins (s.place u) j :=
    fun u hu => hp.wake _ k ((h.chan k u).mp hu)
  refine ⟨?_, ?_, ?_, h.past⟩
  · intro j u
    simp only [hplace u]
    split
    · next hu => rw [(hwake u hu.1).2, h.spin]
    · exact h.spin j u
  · intro j u
    simp only [hplace u]
    by_cases hj : j = k
    · subst hj
      rw [update_self]
      split
      · next hu => simp [(hwake u hu.1).1, hu.2]
      · next hu =>
        rw [← h.chan j u]
        exact ⟨fun hm => hsub.subset hm, fun hm => by simpa [hm] using hu⟩
    · rw [update_of_ne hj]
      split
      · next hu =>
        rw [h.chan j u, (h.chan k u).mp hu.1, (hwake u hu.1).1]
        simp [Ne.symm hj]
      · exact h.chan j u
  · intro j
    show (update s.chan k us j).Pairwise (fun a b => s.since a < s.since b)
    by_cases hj : j = k
    · subst hj
      rw [update_self]
      exact (h.order j).sublist hsub
    · rw [update_of_ne hj]
      exact h.order j

theorem Sound.sleep (h : Sound spins asleep s) {k : K} {x : X} (ha : asleep (s.place t) = none)
    (hx : asleep x = some k) (hspin : ∀ j, spins (s.place t) j = decide (j = k))
    (hoff : ∀ j, spins x j = false) :
    Sound spins asleep ({ s with
      spin := update s.spin k none
      chan := update s.chan k (s.chan k ++ [t])
      now := s.now+1
      since := update s.since t s.now }.goto t x) := by
  have hk : s.spin k = some t := (h.spin k t).mpr (by simp [hspin])
  refine ⟨?_, ?_, ?_, ?_⟩
  · intro j u
    by_cases hu : u = t
    · subst hu
      by_cases hj : j = k
      · simp [State.goto, hj, hoff]
      · have hno : s.spin j ≠ some u := by
          rw [Ne, h.spin, hspin]
          simp [hj]
        simp [State.goto, update_of_ne hj, hoff, hno]
    · by_cases hj : j = k
      · have hno : ¬spins (s.place u) k = true := by
          rw [← h.spin, hk]
          simpa using Ne.symm hu
        simp [State.goto, hj, update_of_ne hu, hno]
      · simpa [State.goto, update_of_ne hj, update_of_ne hu] using h.spin j u
  · intro j u
    by_cases hu : u = t
    · subst hu
      by_cases hj : j = k
      · simp [State.goto, hj, hx]
      · simpa [State.goto, update_of_ne hj, hx, Ne.symm hj] using h.awake ha j
    · by_cases hj : j = k
      · subst hj
        simpa [State.goto, update_of_ne hu, hu] using h.chan j u
      · simpa [State.goto, update_of_ne hj, update_of_ne hu] using h.chan j u
  · intro j
    have hsame : ∀ us : List T, (∀ u ∈ us, u ≠ t) → us.Pairwise (fun a b => s.since a < s.since b) →
        us.Pairwise (fun a b => update s.since t s.now a < update s.since t s.now b) := by
      intro us hne hpair
      refine hpair.imp_of_mem ?_
      intro a b hma hmb hab
      rwa [update_of_ne (hne a hma), update_of_ne (hne b hmb)]
    have hout : ∀ i, ∀ u ∈ s.chan i, u ≠ t := by
      rintro i u hu rfl
      exact h.awake ha i hu
    by_cases hj : j = k
    · subst hj
      show (update s.chan j (s.chan j ++ [t]) j).Pairwise
        (fun a b => update s.since t s.now a < update s.since t s.now b)
      rw [update_self]
      refine List.pairwise_append.mpr ⟨hsame _ (hout j) (h.order j), List.pairwise_singleton _ _, ?_⟩
      intro a hma b hb
      rw [List.mem_singleton.mp hb, update_self, update_of_ne (hout j a hma)]
      exact h.past a
    · show (update s.chan k _ j).Pairwise _
      rw [update_of_ne hj]
      exact hsame _ (hout j) (h.order j)
  · intro u
    by_cases hu : u = t
    · subst hu
      simp [State.goto]
    · have := h.past u
      simp only [State.goto, update_of_ne hu]
      omega

/-- A disciplined program keeps to it. -/
theorem effect_sound (hp : Disciplined p spins asleep) (h : Sound spins asleep s)
    (he : Effect p t l s s') : Sound spins asleep s' := by
  cases he with
  | act hc hf =>
    obtain ⟨ha, hx, hs⟩ := hp.act _ _ _ _ _ _ _ hc hf
    exact h.goto ha hx hs
  | @spinAcquire k x hc hk =>
    obtain ⟨ha, hx, -, hs⟩ := hp.spinAcquire _ _ _ hc
    refine h.goto_spin ha hx (fun j => ?_)
    by_cases hj : j = k
    · simp [hj, hs, hk, eq_comm]
    · simp [hs, hj, h.spin]
  | @spinRelease k x hc hk =>
    obtain ⟨ha, hx, -, hs⟩ := hp.spinRelease _ _ _ hc
    refine h.goto_spin ha hx (fun j => ?_)
    by_cases hj : j = k
    · simp [hj, hs, hk, eq_comm]
    · simp [hs, hj, h.spin]
  | sleep hc hk ho =>
    obtain ⟨ha, hx, hspin, hoff⟩ := hp.sleep _ _ _ hc
    exact h.sleep ha hx hspin hoff
  | wakeNone hc hk hq =>
    obtain ⟨ha, hx, -, hs⟩ := hp.wakeOne _ _ _ hc
    exact h.goto ha hx hs
  | @wakeOne k x u us hc hk hq =>
    obtain ⟨ha, hx, -, hs⟩ := hp.wakeOne _ _ _ hc
    have hnd := h.nodup k
    rw [hq] at hnd
    have hut : t ≠ u := by
      rintro rfl
      exact h.awake ha k (by simp [hq])
    have hw := h.woken hp k us (update s.place u (p.wake (s.place u))) (by simp [hq]) (by
        intro v
        by_cases hv : v = u
        · subst hv
          simp [hq, (List.nodup_cons.mp hnd).1]
        · simp [hq, hv])
    refine hw.goto (m := s.mem) ?_ hx ?_
    · simpa [update_of_ne hut] using ha
    · simpa [update_of_ne hut] using hs
  | @wakeAll k x hc hk =>
    obtain ⟨ha, hx, -, hs⟩ := hp.wakeAll _ _ _ hc
    have hout := h.awake ha k
    have hw := h.woken hp k [] (wakeAll p k s).place (by simp) (by simp [wakeAll])
    refine hw.goto (m := s.mem) ?_ hx ?_
    · simpa [wakeAll, hout] using ha
    · simpa [wakeAll, hout] using hs

/-- None of the assertions about spinlocks fails: a step that stops for good is
an `act` that does. -/
theorem step_stops [Fintype K] {e : Stop} (hp : Disciplined p spins asleep) (h : Sound spins asleep s)
    (hs : step p (t, l) s = .error e) (he : e ≠ .blocked) :
    ∃ f, p.code (s.place t) = .act f ∧ f l t s.mem = .error e := by
  simp only [step] at hs
  split at hs
  · next f hc =>
    split at hs
    · next d hd =>
      cases hs
      exact ⟨f, hc, hd⟩
    · cases hs
  · next k x hc =>
    obtain ⟨-, -, hoff, -⟩ := hp.spinAcquire _ _ _ hc
    split at hs
    · cases hs
    · split at hs
      · next hk =>
        rw [h.spin, hoff] at hk
        cases hk
      · cases hs
        exact absurd rfl he
  · next k x hc =>
    rw [if_pos ((h.spin k t).mpr (hp.spinRelease _ _ _ hc).2.2.1)] at hs
    cases hs
  · next k x hc =>
    obtain ⟨-, -, hspin, -⟩ := hp.sleep _ _ _ hc
    have hk : s.spin k = some t := (h.spin k t).mpr (by simp [hspin])
    have ho : ∀ j, j ≠ k → s.spin j ≠ some t := by
      intro j hj hjt
      rw [h.spin, hspin] at hjt
      simp [hj] at hjt
    rw [if_pos ⟨hk, ho⟩] at hs
    cases hs
  · next k x hc =>
    rw [if_pos ((h.spin k t).mpr (hp.wakeOne _ _ _ hc).2.2.1)] at hs
    cases hs
  · next k x hc =>
    rw [if_pos ((h.spin k t).mpr (hp.wakeAll _ _ _ hc).2.2.1)] at hs
    cases hs
  · cases hs
    exact absurd rfl he

/-! Counting threads by where they are. -/

section Tally

omit [DecidableEq K]

variable [Fintype T] {w : X → ℕ} {f : T → X}

def tally (w : X → ℕ) (f : T → X) : ℕ := ∑ t, w (f t)

theorem tally_update (w : X → ℕ) (f : T → X) (t : T) (x : X) :
    tally w (update f t x) + w (f t) = tally w f + w x := by
  have hf : tally w f = w (f t) + ∑ u ∈ Finset.univ.erase t, w (f u) :=
    (Finset.add_sum_erase _ _ (Finset.mem_univ t)).symm
  have hu : tally w (update f t x) = w x + ∑ u ∈ Finset.univ.erase t, w (f u) := by
    rw [tally, ← Finset.add_sum_erase _ _ (Finset.mem_univ t), update_self]
    congr 1
    apply Finset.sum_congr rfl
    intro u hu
    rw [update_of_ne (Finset.ne_of_mem_erase hu)]
  omega

omit [DecidableEq T] in
/-- Threads that are counted only while they hold a spinlock. -/
theorem Sound.tally_free (h : Sound spins asleep s) {k : K} (hw : ∀ x, w x ≠ 0 → spins x k = true)
    (hfree : s.spin k = none) : tally w s.place = 0 := by
  apply Finset.sum_eq_zero
  intro t _
  by_contra hne
  have ht := (h.spin k t).mpr (hw _ hne)
  rw [hfree] at ht
  cases ht

omit [DecidableEq T] in
theorem Sound.tally_held (h : Sound spins asleep s) {k : K} (hw : ∀ x, w x ≠ 0 → spins x k = true)
    (hheld : s.spin k = some t) : tally w s.place = w (s.place t) := by
  apply Finset.sum_eq_single t
  · intro u _ hut
    by_contra hne
    have hu := (h.spin k u).mpr (hw _ hne)
    rw [hheld] at hu
    exact hut (Option.some.inj hu).symm
  · intro hno
    exact absurd (Finset.mem_univ t) hno

end Tally

end OS161.Channels
