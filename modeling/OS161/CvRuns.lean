import OS161.LockRuns

/-!
# Waiting on a condition variable

`cv_wait` takes the spinlock of the condition variable before it releases the
lock and passes it on to the sleep, which lets go of it once the thread is on
the channel. No signal falls in between, and a thread that has been woken comes
back once, with the lock.
-/

set_option autoImplicit false

namespace OS161.Synch

open Function OS161.Channels OS161.Vfs

variable {T C P σ L : Type} [DecidableEq T] [DecidableEq C]

/-- How often each thread has been woken from a condition variable, and how
often it has returned from `cv_wait`. -/
structure Record (T C : Type) where
  wakes : T → C → ℕ
  returns : T → C → ℕ

def Record.zero : Record T C := ⟨fun _ _ => 0, fun _ _ => 0⟩

def Record.wake (g : Record T C) (c : C) (us : List T) : Record T C :=
  { g with wakes := fun u d => g.wakes u d + if d = c ∧ u ∈ us then 1 else 0 }

def Record.ret (g : Record T C) (c : C) (t : T) : Record T C :=
  { g with returns := fun u d => g.returns u d + if d = c ∧ u = t then 1 else 0 }

/-- The steps that count: the wakeups of `cv_signal` and `cv_broadcast`, and the
last step of the `lock_acquire` in `cv_wait`. -/
def note (a : T × L) (s : Kernel T C P σ) (g : Record T C) : Record T C :=
  match s.place a.1 with
  | .wake .wake false c _ => g.wake c ((s.chan (some c)).take 1)
  | .wake .wake true c _ => g.wake c (s.chan (some c))
  | .acquire .done (some c) _ => g.ret c a.1
  | _ => g

/-- In `cv_wait`, after the lock has been released and before a wakeup. -/
def waiting (c : C) : Point C P → Bool
  | .release .wake w _ | .release .done w _ => decide (w = some c)
  | .wait .sleep d _ | .wait .asleep d _ => decide (d = c)
  | _ => false

/-- In `cv_wait`, after the wakeup. -/
def returning (c : C) : Point C P → Bool
  | .wait .woken d _ | .wait .unspin d _ => decide (d = c)
  | .acquire _ w _ => decide (w = some c)
  | _ => false

/-- Whoever is about to signal finds every waiting thread on the channel. -/
def WaitersQueued (s : Kernel T C P σ) : Prop :=
  ∀ t all c p, s.place t = .wake .wake all c p →
    ∀ u, waiting c (s.place u) = true → u ∈ s.chan (some c)

/-- What `cv_signal` does to the channel and the sleepers: the one that has
slept longest is woken, and no other one. -/
def WakesOldest (c : C) (s s' : Kernel T C P σ) : Prop :=
  s'.chan (some c) = (s.chan (some c)).tail ∧ (∀ k, k ≠ some c → s'.chan k = s.chan k) ∧
  ∀ u us, s.chan (some c) = u::us → (∀ v ∈ us, s.since u < s.since v ∧ s'.place v = s.place v) ∧
    ∃ q, s.place u = .wait .asleep c q ∧ s'.place u = .wait .woken c q

def WakesAll (c : C) (s s' : Kernel T C P σ) : Prop :=
  s'.chan (some c) = [] ∧ (∀ k, k ≠ some c → s'.chan k = s.chan k) ∧
  ∀ u ∈ s.chan (some c), ∃ q, s.place u = .wait .asleep c q ∧ s'.place u = .wait .woken c q

def Matched (s : Kernel T C P σ) (g : Record T C) : Prop :=
  ∀ t c, g.wakes t c = g.returns t c + if returning c (s.place t) = true then 1 else 0

variable {move : Client T C P σ L} {s s' : Kernel T C P σ} {t : T} {l : L} {g : Record T C}

omit [DecidableEq T] in
/-- A thread on the channel of a condition variable is in `cv_wait`. -/
theorem Locked.on_cv (h : Locked s) {c : C} {u : T} (hu : u ∈ s.chan (some c)) :
    ∃ q, s.place u = .wait .asleep c q := by
  have ha := (h.sound.chan (some c) u).mp hu
  cases hp : s.place u with
  | acquire a w p => cases a <;> simp_all [asleep]
  | wait w d p => cases w <;> simp_all [asleep]
  | _ => simp_all [asleep]

omit [DecidableEq T] in
theorem Locked.queued (h : Locked s) : WaitersQueued s := by
  intro t all c p ht u hu
  have hsp : spins (s.place t) (some c) = true := by simp [ht, spins]
  -- until it is on the channel, the waiting thread has the same spinlock
  have hne : spins (s.place u) (some c) = true → u = t := fun h' => h.sound.spin_unique h' hsp
  rw [h.sound.chan]
  cases hp : s.place u with
  | release r w q => cases r <;> simp_all [waiting, spins]
  | wait w d q => cases w <;> simp_all [waiting, spins, asleep]
  | _ => simp_all [waiting]

theorem Locked.signal [Fintype C] (h : Locked s) {c : C} {p : P} (hp : s.place t = .wake .wake false c p) :
    ∃ s', step move (t, l) s = .ok s' ∧ WakesOldest c s s' := by
  have hk : s.spin (some c) = some t := (h.sound.spin _ _).mpr (by simp [hp, spins])
  refine ⟨(wakeOne (program move) (some c) s).goto t (.wake .done false c p), ?_, ?_⟩
  · simp [step, Channels.step, hp, program, code, hk]
  cases hq : s.chan (some c) with
  | nil => simp [WakesOldest, wakeOne, hq, State.goto]
  | cons u us =>
    obtain ⟨q, hu⟩ := h.on_cv (u := u) (c := c) (by simp [hq])
    have hpair := h.sound.order (some c)
    have hnd := h.sound.nodup (some c)
    rw [hq] at hpair hnd
    have hne : ∀ v ∈ u::us, v ≠ t := by
      rintro v hv rfl
      obtain ⟨q', hv'⟩ := h.on_cv (u := v) (c := c) (by rwa [hq])
      simp [hp] at hv'
    refine ⟨by simp [wakeOne, hq, State.goto], ?_, ?_⟩
    · intro k hkc
      simp [wakeOne, hq, State.goto, update_of_ne hkc]
    · intro u' us' he
      rw [hq] at he
      cases he
      refine ⟨?_, q, hu, ?_⟩
      · intro v hv
        refine ⟨(List.pairwise_cons.mp hpair).1 v hv, ?_⟩
        have hvu : v ≠ u := by
          rintro rfl
          exact (List.nodup_cons.mp hnd).1 hv
        simp [wakeOne, hq, State.goto, update_of_ne (hne v (by simp [hv])), update_of_ne hvu]
      · simp [wakeOne, hq, State.goto, update_of_ne (hne u (by simp)), program, hu, Synch.woken]

theorem Locked.broadcast [Fintype C] (h : Locked s) {c : C} {p : P}
    (hp : s.place t = .wake .wake true c p) : ∃ s', step move (t, l) s = .ok s' ∧ WakesAll c s s' := by
  have hk : s.spin (some c) = some t := (h.sound.spin _ _).mpr (by simp [hp, spins])
  refine ⟨(wakeAll (program move) (some c) s).goto t (.wake .done true c p), ?_, ?_, ?_, ?_⟩
  · simp [step, Channels.step, hp, program, code, hk]
  · simp [wakeAll, State.goto]
  · intro k hkc
    simp [wakeAll, State.goto, update_of_ne hkc]
  · intro u hu
    obtain ⟨q, hq⟩ := h.on_cv hu
    have hut : u ≠ t := by
      rintro rfl
      simp [hp] at hq
    exact ⟨q, hq, by simp [wakeAll, State.goto, update_of_ne hut, hu, program, hq, Synch.woken]⟩

/-- The last step of `cv_wait`. -/
theorem Locked.returned [Fintype C] (h : Locked s) {c : C} {p : P}
    (hp : s.place t = .acquire .done (some c) p) :
    ∃ s', step move (t, l) s = .ok s' ∧ s'.place t = .client true p ∧ s'.mem.holder = some t := by
  have hk : s.spin none = some t := (h.sound.spin _ _).mpr (by simp [hp, spins])
  refine ⟨{ s with spin := update s.spin none none }.goto t (.client true p), ?_, ?_, ?_⟩
  · simp [step, Channels.step, hp, program, code, hk]
  · simp [State.goto]
  · exact (h.holder t).mpr (by simp [hp, holds])

/-! Wakes and returns. -/

omit [DecidableEq T] in
theorem Matched.keep {g' : Record T C} (h : Matched s g) (hg : g' = g)
    (hp : ∀ u c, returning c (s'.place u) = returning c (s.place u)) : Matched s' g' := by
  intro u c
  rw [hg, hp]
  exact h u c

/-- One thread goes on within `cv_wait`, or outside of it. -/
theorem Matched.goto {g' : Record T C} (h : Matched s g) (hg : g' = g) {x : Point C P}
    (hs : s'.place = update s.place t x) (hx : ∀ c, returning c x = returning c (s.place t)) :
    Matched s' g' := by
  refine h.keep hg ?_
  intro u c
  rw [hs]
  by_cases hu : u = t
  · subst hu
    rw [update_self, hx]
  · rw [update_of_ne hu]

/-- The return from `cv_wait`. -/
theorem ret_matched (h : Matched s g) {c : C} {p : P} (hp : s.place t = .acquire .done (some c) p)
    (hs : s'.place = update s.place t (.client true p)) : Matched s' (g.ret c t) := by
  intro u d
  have hold := h u d
  rw [hs]
  by_cases hu : u = t
  · subst hu
    by_cases hdc : d = c
    · simpa [Record.ret, returning, hp, hdc] using hold
    · simpa [Record.ret, returning, hp, hdc, Ne.symm hdc] using hold
  · simpa [Record.ret, update_of_ne hu, hu] using hold

theorem silent_matched (h : Matched s g) {x y : Point C P} (hy : s.place t = y) (hp : Silent y x)
    (hs : s'.place = update s.place t x) : Matched s' (note (t, l) s g) := by
  cases hp with
  | acquireDone w p =>
    cases w with
    | none => exact h.goto (by simp [note, hy]) hs (by simp [hy, returning])
    | some c =>
      rw [show note (t, l) s g = g.ret c t by simp [note, hy]]
      exact ret_matched h hy hs
  | _ => exact h.goto (by simp [note, hy]) hs (by simp [hy, returning])

/-- A wakeup of the sleepers `us` of a condition variable. -/
theorem wake_matched (h : Matched s g) {c : C} {us : List T} {x : Point C P}
    (ht : ∀ d, returning d x = returning d (s.place t)) (hus : ∀ u ∈ us, ∃ q, s.place u = .wait .asleep c q)
    (hut : t ∉ us)
    (hs : ∀ u, s'.place u = if u = t then x else if u ∈ us then woken (s.place u) else s.place u) :
    Matched s' (g.wake c us) := by
  intro u d
  have hold := h u d
  rw [hs]
  by_cases hu : u = t
  · subst hu
    simpa [Record.wake, hut, ht] using hold
  · by_cases hmem : u ∈ us
    · obtain ⟨q, hq⟩ := hus u hmem
      by_cases hdc : d = c
      · simpa [Record.wake, hu, hmem, hq, woken, returning, hdc] using hold
      · simpa [Record.wake, hu, hmem, hq, woken, returning, hdc, Ne.symm hdc] using hold
    · simpa [Record.wake, hu, hmem] using hold

theorem event_matched (hl : Locked s) (h : Matched s g) (he : Event move t l s s') :
    Matched s' (note (t, l) s g) := by
  cases he with
  | client hp hm he =>
    refine h.goto (by simp [note, hp]) rfl ?_
    intro c
    rcases enter_cases he with ⟨rfl, -⟩ | ⟨rfl, -⟩ | ⟨-, ⟨rfl, -⟩ | ⟨d, rfl, -⟩ | ⟨d, rfl, -⟩ | ⟨d, rfl, -⟩⟩ <;>
      simp [hp, returning]
  | silent hp => exact silent_matched h rfl hp rfl
  | take hp ha => exact h.goto (by simp [note, hp]) rfl (by simp [hp, returning])
  | refuse hp ha => exact h.goto (by simp [note, hp]) rfl (by simp [hp, returning])
  | clear hp => exact h.goto (by simp [note, hp]) rfl (by simp [hp, returning])
  | sleep hp =>
    rcases hp with ⟨w, p, hp, rfl, rfl⟩ | ⟨c, p, hp, rfl, rfl⟩ <;>
      exact h.goto (by simp [note, hp]) rfl (by simp [hp, returning])
  | wakeNone hp hk hq =>
    rcases hp with ⟨w, p, hp, rfl, rfl⟩ | ⟨c, p, hp, rfl, rfl⟩
    · exact h.goto (by simp [note, hp]) rfl (by simp [hp, returning])
    · rw [show note (t, l) s g = g.wake c [] by simp [note, hp, hq]]
      exact h.goto (by simp [Record.wake]) rfl (by simp [hp, returning])
  | @wakeOne k x u us hp hk hq =>
    rcases hp with ⟨w, p, hp, rfl, rfl⟩ | ⟨c, p, hp, rfl, rfl⟩
    · obtain ⟨w', q, hu⟩ := hl.on_lock (u := u) (by simp [hq])
      refine h.keep (by simp [note, hp]) ?_
      intro v c
      by_cases hvt : v = t
      · subst hvt
        simp [State.goto, hp, returning]
      · by_cases hvu : v = u
        · subst hvu
          simp [State.goto, update_of_ne hvt, hu, woken, returning]
        · simp [State.goto, update_of_ne hvt, update_of_ne hvu]
    · obtain ⟨q, hu⟩ := hl.on_cv (u := u) (c := c) (by simp [hq])
      rw [show note (t, l) s g = g.wake c [u] by simp [note, hp, hq]]
      have hut : t ≠ u := by
        rintro rfl
        simp [hp] at hu
      refine wake_matched h (t := t) (x := .wake .done false c p) (by simp [hp, returning])
        (by simpa using ⟨q, hu⟩) (by simpa using hut) ?_
      intro v
      by_cases hvt : v = t
      · simp [State.goto, hvt]
      · by_cases hvu : v = u
        · subst hvu
          simp [State.goto, hvt]
        · simp [State.goto, hvt, hvu]
  | @wakeAll c p hp hk =>
    rw [show note (t, l) s g = g.wake c (s.chan (some c)) by simp [note, hp]]
    refine wake_matched h (t := t) (x := .wake .done true c p) (by simp [hp, returning])
      (fun u hu => hl.on_cv hu) (hl.sound.awake (by simp [hp, asleep]) _) ?_
    intro v
    by_cases hvt : v = t
    · simp [State.goto, hvt]
    · simp [State.goto, hvt, wakeAll, program]

structure Tracked (s : Kernel T C P σ) (g : Record T C) : Prop where
  locked : Locked s
  matched : Matched s g

theorem step_tracked [Fintype C] {a : T × L} (h : Tracked s g) (hs : step move a s = .ok s') :
    Tracked s' (note a s g) :=
  ⟨step_locked h.locked hs, event_matched h.locked h.matched (effect_event (step_effect hs))⟩

omit [DecidableEq T] in
theorem create_tracked (p : T → P) (x : σ) : Tracked (create p x : Kernel T C P σ) Record.zero :=
  ⟨create_locked p x, fun _ _ => rfl⟩

/-- (1) Once a thread in `cv_wait` has released the lock, a signal or broadcast
finds it on the channel; (2) a signal wakes the longest sleeper, a broadcast all
of them; (3) a thread comes back from `cv_wait` with the lock, and has been woken
once for each time it came back, and once more if it is on its way. -/
theorem run_waits [Fintype C] (move : Client T C P σ L) (p : T → P) (x : σ) (as : List (T × L))
    (s : Kernel T C P σ) (hr : run move as (create p x) = .ok s) :
    WaitersQueued s ∧
    (∀ t l c q, s.place t = .wake .wake false c q → ∃ s', step move (t, l) s = .ok s' ∧ WakesOldest c s s') ∧
    (∀ t l c q, s.place t = .wake .wake true c q → ∃ s', step move (t, l) s = .ok s' ∧ WakesAll c s s') ∧
    (∀ t l c q, s.place t = .acquire .done (some c) q →
      ∃ s', step move (t, l) s = .ok s' ∧ s'.place t = .client true q ∧ s'.mem.holder = some t) ∧
    Matched s (Runs.track (step move) note as (create p x) Record.zero) := by
  have hstep : ∀ a s s' g, Tracked s g → step move a s = .ok s' → Tracked s' (note a s g) :=
    fun _ _ _ _ h hs => step_tracked h hs
  have ht := Runs.track_invariant hstep (create_tracked p x) hr
  have h := ht.locked
  exact ⟨h.queued, fun t l c q hp => h.signal hp, fun t l c q hp => h.broadcast hp,
    fun t l c q hp => h.returned hp, ht.matched⟩

/-- Threads 0 and 1 wait, thread 2 is about to signal. -/
def twoWaiters : List (Fin 3 × Call (Fin 1)) :=
  [0, 0, 0, 0].map (·, .acquire) ++ List.replicate 8 (0, .wait 0) ++
    [1, 1, 1, 1].map (·, .acquire) ++ List.replicate 8 (1, .wait 0) ++
    [2, 2, 2, 2].map (·, .acquire) ++ [2, 2].map (·, .signal 0)

theorem twoWaiters_waits :
    ∃ s, run obedient twoWaiters (create (fun _ => ()) ()) = .ok s ∧ s.chan (some 0) = [0, 1] ∧
      s.place 2 = .wake .wake false 0 () ∧
      ∃ s', step obedient (2, .skip) s = .ok s' ∧ s'.chan (some 0) = [1] := by
  obtain ⟨s, hr, hchan, hp⟩ : ∃ s, run obedient twoWaiters (create (fun _ => ()) ()) = .ok s ∧
      s.chan (some 0) = [0, 1] ∧ s.place 2 = .wake .wake false 0 () := by decide +kernel
  obtain ⟨s', hs, hw⟩ := (run_waits obedient _ () twoWaiters s hr).2.1 2 .skip 0 () hp
  exact ⟨s, hr, hchan, hp, s', hs, by rw [hw.1, hchan, List.tail_cons]⟩

end OS161.Synch
