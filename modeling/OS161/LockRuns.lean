import OS161.Synch

/-!
# Mutual exclusion and wakeups of a lock

A thread that finds the lock taken sleeps until a release wakes it, and may then
find it taken again by somebody who came later. Whenever the lock is available
and threads sleep, one that will look at it is on its way.
-/

set_option autoImplicit false

namespace OS161.Synch

open Function OS161.Channels OS161.Vfs

variable {T C P σ L : Type}

/-- A thread that has been woken and has not looked at the lock again. -/
def unchecked : Point C P → Bool
  | .acquire .woken _ _ | .acquire (.test true) _ _ => true
  | _ => false

/-- A release between making the lock available and its wakeup. -/
def releasing : Point C P → Bool
  | .release .wake _ _ => true
  | _ => false

/-- Between the return of `lock_acquire` and the call of `lock_release`. -/
def between : Point C P → Bool
  | .client inside _ => inside
  | .wait .spin _ _ => true
  | .wake _ _ _ _ => true
  | _ => false

theorem holds_of_between {x : Point C P} (hx : between x = true) : holds x = true := by
  cases x with
  | wait w c p => cases w <;> simp_all [between, holds]
  | _ => simp_all [between, holds]

def willLook (x : Point C P) : Bool := unchecked x || releasing x

@[simp]
theorem holds_woken (x : Point C P) : holds (woken x) = holds x := by
  cases x with
  | acquire a w p => cases a <;> rfl
  | wait w c p => cases w <;> rfl
  | _ => rfl

theorem woken_ne_sleep {x : Point C P} {w : Option C} {p : P} (hx : woken x = .acquire .sleep w p) :
    x = .acquire .sleep w p := by
  cases x with
  | acquire a w p => cases a <;> simp_all [woken]
  | wait w c p => cases w <;> simp_all [woken]
  | _ => exact hx

theorem willLook_woken {x : Point C P} (hx : willLook x = true) : willLook (woken x) = true := by
  cases x with
  | acquire a w p => cases a <;> simp_all [willLook, unchecked, releasing, woken]
  | wait w c p => cases w <;> simp_all [willLook, unchecked, releasing]
  | _ => exact hx

theorem Silent.holds {x y : Point C P} (h : Silent x y) : holds y = holds x := by
  cases h <;> rfl

theorem Silent.ne_sleep {x y : Point C P} (h : Silent x y) (w : Option C) (p : P) :
    y ≠ .acquire .sleep w p := by
  cases h <;> simp

theorem Silent.willLook {x y : Point C P} (h : Silent x y) (hx : willLook x = true) : willLook y = true := by
  cases h <;> first | rfl | cases hx

variable [DecidableEq C]

structure Locked (s : Kernel T C P σ) : Prop where
  sound : Sound spins asleep s
  available : s.mem.available = true ↔ s.mem.holder = none
  holder : ∀ t, s.mem.holder = some t ↔ holds (s.place t) = true
  barred : ∀ t w p, s.place t = .acquire .sleep w p → s.mem.available = false
  woken : s.mem.available = true → s.chan none ≠ [] → ∃ t, willLook (s.place t) = true

variable {s s' : Kernel T C P σ} {t : T} {l : L}

/-- A step that does not change the lock. -/
theorem Locked.keep (h : Locked s) (hs : Sound spins asleep s')
    (ha : s'.mem.available = s.mem.available) (hh : s'.mem.holder = s.mem.holder)
    (hp : ∀ u, holds (s'.place u) = holds (s.place u))
    (hb : ∀ u w p, s'.place u = .acquire .sleep w p →
      s.place u = .acquire .sleep w p ∨ s.mem.available = false)
    (hw : s.mem.available = true → s'.chan none ≠ [] → ∃ u, willLook (s'.place u) = true) :
    Locked s' := by
  refine ⟨hs, ?_, ?_, ?_, ?_⟩
  · rw [ha, hh]
    exact h.available
  · intro u
    rw [hh, hp]
    exact h.holder u
  · intro u w p hu
    rw [ha]
    rcases hb u w p hu with hold | hno
    · exact h.barred u w p hold
    · exact hno
  · rw [ha]
    exact hw

variable [DecidableEq T] {move : Client T C P σ L}

/-- One thread goes on, and the lock and its channel stay as they are. -/
theorem Locked.goto (h : Locked s) {x : Point C P} {spin : Option C → Option T}
    {m : Mem T σ} {chan : Option C → List T} {now : ℕ} {since : T → ℕ}
    (hs : Sound spins asleep ({ s with spin := spin, mem := m, chan := chan, now := now, since := since }.goto t x))
    (ha : m.available = s.mem.available) (hh : m.holder = s.mem.holder)
    (hx : holds x = holds (s.place t)) (hb : ∀ w p, x = .acquire .sleep w p → s.mem.available = false)
    (hw : s.mem.available = true → chan none ≠ [] →
      s.chan none ≠ [] ∧ (willLook (s.place t) = true → willLook x = true)) :
    Locked ({ s with spin := spin, mem := m, chan := chan, now := now, since := since }.goto t x) := by
  refine h.keep hs ha hh ?_ ?_ ?_
  · intro u
    by_cases hu : u = t
    · subst hu
      simpa [State.goto] using hx
    · simp [State.goto, update_of_ne hu]
  · intro u w p hp
    by_cases hu : u = t
    · subst hu
      exact .inr (hb w p (by simpa [State.goto] using hp))
    · exact .inl (by simpa [State.goto, update_of_ne hu] using hp)
  · intro hav hne
    obtain ⟨hold, hlook⟩ := hw hav hne
    obtain ⟨u, hu⟩ := h.woken hav hold
    by_cases hut : u = t
    · subst hut
      exact ⟨u, by simpa [State.goto] using hlook hu⟩
    · exact ⟨u, by simpa [State.goto, update_of_ne hut] using hu⟩

omit [DecidableEq C] in
theorem enter_locked {m : Mem T σ} {inside : Bool} {p : P} {call : Call C} {y : Point C P}
    (hin : m.holder = some t ↔ inside = true) (he : enter t m inside p call = .ok y) :
    holds y = inside ∧ ∀ w q, y ≠ .acquire .sleep w q := by
  rcases enter_cases he with ⟨rfl, -⟩ | ⟨rfl, -, hne⟩ | ⟨hh, ⟨rfl, -⟩ | ⟨c, rfl, -⟩ | ⟨c, rfl, -⟩ | ⟨c, rfl, -⟩⟩
  · simp [holds]
  · simp [holds, mt hin.mpr hne]
  all_goals simp [holds, hin.mp hh]

omit [DecidableEq T] in
/-- A thread on the lock's channel is in `lock_acquire`. -/
theorem Locked.on_lock (h : Locked s) {u : T} (hu : u ∈ s.chan none) :
    ∃ w p, s.place u = .acquire .asleep w p := by
  have ha := (h.sound.chan none u).mp hu
  cases hp : s.place u with
  | acquire a w p => cases a <;> simp_all [asleep]
  | wait w c p => cases w <;> simp_all [asleep]
  | _ => simp_all [asleep]

theorem take_locked (h : Locked s) {again : Bool} {w : Option C} {p : P}
    (hp : s.place t = .acquire (.test again) w p) (ha : s.mem.available = true)
    (hs : Sound spins asleep ({ s with mem := s.mem.taken t }.goto t (.acquire .done w p))) :
    Locked ({ s with mem := s.mem.taken t }.goto t (.acquire .done w p)) := by
  refine ⟨hs, by simp [State.goto, Mem.taken], ?_, fun _ _ _ _ => rfl, by simp [State.goto, Mem.taken]⟩
  intro u
  by_cases hu : u = t
  · subst hu
    simp [State.goto, Mem.taken, holds]
  · have hno : ¬holds (s.place u) = true := by
      rw [← h.holder u, h.available.mp ha]
      simp
    simp [State.goto, Mem.taken, update_of_ne hu, hno, Ne.symm hu]

theorem clear_locked (h : Locked s) {w : Option C} {p : P} (hp : s.place t = .release .clear w p)
    (hs : Sound spins asleep ({ s with mem := s.mem.freed }.goto t (.release .wake w p))) :
    Locked ({ s with mem := s.mem.freed }.goto t (.release .wake w p)) := by
  have hh : s.mem.holder = some t := (h.holder t).mpr (by simp [hp, holds])
  refine ⟨hs, by simp [State.goto, Mem.freed], ?_, ?_, fun _ _ => ⟨t, by simp [State.goto, willLook, releasing]⟩⟩
  · intro u
    by_cases hu : u = t
    · subst hu
      simp [State.goto, Mem.freed, holds]
    · have hno : ¬holds (s.place u) = true := by
        rw [← h.holder u, hh]
        simpa using Ne.symm hu
      simp [State.goto, Mem.freed, update_of_ne hu, hno]
  · intro u w' q hu
    exfalso
    by_cases hut : u = t
    · subst hut
      simp [State.goto] at hu
    · -- both would have the lock's spinlock
      have hsl : s.place u = .acquire .sleep w' q := by simpa [State.goto, update_of_ne hut] using hu
      exact hut (h.sound.spin_unique (k := none) (by simp [hsl, spins]) (by simp [hp, spins]))

theorem wake_locked (h : Locked s) {k : Option C} {x : Point C P} {us : List T} {place : T → Point C P}
    (hs : Sound spins asleep ({ s with chan := update s.chan k us, place := place }.goto t x))
    (hplace : ∀ u, u ≠ t → place u = s.place u ∨ place u = woken (s.place u))
    (hx : holds x = holds (s.place t)) (hb : ∀ w p, x ≠ .acquire .sleep w p)
    (hw : s.mem.available = true → (update s.chan k us) none ≠ [] →
      ∃ u, u ≠ t ∧ willLook (place u) = true) :
    Locked ({ s with chan := update s.chan k us, place := place }.goto t x) := by
  refine h.keep hs rfl rfl ?_ ?_ ?_
  · intro u
    by_cases hu : u = t
    · subst hu
      simpa [State.goto] using hx
    · rcases hplace u hu with he | he <;> simp [State.goto, update_of_ne hu, he]
  · intro u w p hp
    by_cases hu : u = t
    · subst hu
      exact absurd (by simpa [State.goto] using hp) (hb w p)
    · have hpl : place u = .acquire .sleep w p := by simpa [State.goto, update_of_ne hu] using hp
      rcases hplace u hu with he | he
      · exact .inl (he ▸ hpl)
      · exact .inl (woken_ne_sleep (he ▸ hpl))
  · intro hav hne
    obtain ⟨u, hut, hu⟩ := hw hav hne
    exact ⟨u, by simpa [State.goto, update_of_ne hut] using hu⟩

/-- On the channel of a condition variable, nobody who will look at the lock is
lost. -/
theorem wakeCv_locked (h : Locked s) {c : C} {x : Point C P} {us : List T} {place : T → Point C P}
    (hs : Sound spins asleep ({ s with chan := update s.chan (some c) us, place := place }.goto t x))
    (hplace : ∀ u, place u = s.place u ∨ place u = woken (s.place u))
    (hx : holds x = holds (s.place t)) (hb : ∀ w p, x ≠ .acquire .sleep w p)
    (ht : willLook (s.place t) = false) :
    Locked ({ s with chan := update s.chan (some c) us, place := place }.goto t x) := by
  refine wake_locked h hs (fun v _ => hplace v) hx hb ?_
  intro hav hne
  obtain ⟨v, hv⟩ := h.woken hav (by simpa using hne)
  refine ⟨v, ?_, ?_⟩
  · rintro rfl
    simp [hv] at ht
  · rcases hplace v with he | he <;> rw [he]
    · exact hv
    · exact willLook_woken hv

theorem wakeOne_locked (h : Locked s) {k : Option C} {x : Point C P} {u : T} {us : List T}
    (hp : (∃ w p, s.place t = .release .wake w p ∧ k = none ∧ x = .release .done w p) ∨
      ∃ c p, s.place t = .wake .wake false c p ∧ k = some c ∧ x = .wake .done false c p)
    (hq : s.chan k = u::us)
    (hs : Sound spins asleep ({ s with
      chan := update s.chan k us
      place := update s.place u (woken (s.place u)) }.goto t x)) :
    Locked ({ s with
      chan := update s.chan k us
      place := update s.place u (woken (s.place u)) }.goto t x) := by
  have hplace : ∀ v, update s.place u (woken (s.place u)) v = s.place v ∨
      update s.place u (woken (s.place u)) v = woken (s.place v) := by
    intro v
    by_cases hv : v = u
    · exact .inr (by simp [hv])
    · exact .inl (by simp [hv])
  rcases hp with ⟨w, p, hp, rfl, rfl⟩ | ⟨c, p, hp, rfl, rfl⟩
  · refine wake_locked h hs (fun v _ => hplace v) (by simp [hp, holds]) (by simp) ?_
    intro _ _
    obtain ⟨w', q, hu⟩ := h.on_lock (u := u) (by simp [hq])
    refine ⟨u, ?_, by simp [hu, woken, willLook, unchecked]⟩
    rintro rfl
    simp [hp] at hu
  · exact wakeCv_locked h hs hplace (by simp [hp, holds]) (by simp)
      (by simp [hp, willLook, unchecked, releasing])

theorem wakeAll_locked (h : Locked s) {c : C} {p : P} (hp : s.place t = .wake .wake true c p)
    (hs : Sound spins asleep ((wakeAll (program move) (some c) s).goto t (.wake .done true c p))) :
    Locked ((wakeAll (program move) (some c) s).goto t (.wake .done true c p)) := by
  refine wakeCv_locked h hs ?_ (by simp [hp, holds]) (by simp) (by simp [hp, willLook, unchecked, releasing])
  intro v
  by_cases hv : v ∈ s.chan (some c)
  · exact .inr (by simp [hv, program])
  · exact .inl (by simp [hv])

theorem event_locked (h : Locked s) (hs : Sound spins asleep s') (he : Event move t l s s') : Locked s' := by
  cases he with
  | client hp hm he =>
    obtain ⟨hy, hns⟩ := enter_locked (by rw [h.holder t, hp, holds]) he
    exact h.goto hs rfl rfl (by rw [hy, hp, holds]) (fun w p hx => absurd hx (hns w p))
      (fun _ hne => ⟨hne, by simp [hp, willLook, unchecked, releasing]⟩)
  | silent hp =>
    exact h.goto hs rfl rfl hp.holds (fun w p hx => absurd hx (hp.ne_sleep w p))
      (fun _ hne => ⟨hne, hp.willLook⟩)
  | take hp ha => exact take_locked h hp ha hs
  | refuse hp ha =>
    exact h.goto hs rfl rfl (by simp [hp, holds]) (fun _ _ _ => ha) (by simp [ha])
  | clear hp => exact clear_locked h hp hs
  | sleep hp =>
    rcases hp with ⟨w, p, hp, rfl, rfl⟩ | ⟨c, p, hp, rfl, rfl⟩
    · exact h.goto hs rfl rfl (by simp [hp, holds]) (by simp) (by simp [h.barred t w p hp])
    · exact h.goto hs rfl rfl (by simp [hp, holds]) (by simp)
        (fun _ hne => ⟨by simpa using hne, by simp [hp, willLook, unchecked, releasing]⟩)
  | wakeNone hp hk hq =>
    rcases hp with ⟨w, p, hp, rfl, rfl⟩ | ⟨c, p, hp, rfl, rfl⟩
    · exact h.goto hs rfl rfl (by simp [hp, holds]) (by simp) (fun _ hne => absurd hq hne)
    · exact h.goto hs rfl rfl (by simp [hp, holds]) (by simp)
        (fun _ hne => ⟨hne, by simp [hp, willLook, unchecked, releasing]⟩)
  | wakeOne hp hk hq => exact wakeOne_locked h hp hq hs
  | wakeAll hp hk => exact wakeAll_locked h hp hs

omit [DecidableEq T] in
theorem create_locked (p : T → P) (x : σ) : Locked (create p x : Kernel T C P σ) := by
  refine ⟨sound_of_idle ?_ ?_ ?_ ?_, ?_, ?_, ?_, ?_⟩ <;> simp [create, spins, asleep, holds]

theorem step_locked [Fintype C] {a : T × L} (h : Locked s) (hs : step move a s = .ok s') : Locked s' :=
  have he := step_effect hs
  event_locked h (effect_sound (disciplined move) h.sound he) (effect_event he)

theorem run_locked [Fintype C] {p : T → P} {x : σ} {as : List (T × L)}
    (hr : run move as (create p x) = .ok s) : Locked s :=
  Runs.run_invariant (fun _ _ _ h hs => step_locked h hs) (create_locked p x) hr

/-- The nested assertions never fail: only the client can call a function it may
not call, or stop on its own. -/
theorem stops_client [Fintype C] {e : Stop} (h : Locked s) (hs : step move (t, l) s = .error e)
    (he : e ≠ .blocked) :
    ∃ inside p, s.place t = .client inside p ∧ proceed move inside p l t s.mem = .error e := by
  obtain ⟨f, hc, hf⟩ := step_stops (disciplined move) h.sound hs he
  cases hp : s.place t with
  | client inside p =>
    rw [hp] at hc
    cases hc
    exact ⟨inside, p, rfl, hf⟩
  | acquire a w p =>
    have hno : s.mem.holder ≠ some t ∨ a = .done := by
      rw [Ne, h.holder t, hp]
      cases a <;> simp [holds]
    rw [hp] at hc
    cases a <;> cases hc
    · simp_all
    · simp only [test] at hf
      split at hf <;> cases hf
  | release r w p =>
    rw [hp] at hc
    cases r with
    | check =>
      cases hc
      simp [(h.holder t).mpr (by simp [hp, holds])] at hf
    | clear =>
      cases hc
      cases hf
    | done => cases w <;> cases hc
    | _ => cases hc
  | wait w c p =>
    rw [hp] at hc
    cases w <;> cases hc
  | wake w all c p =>
    rw [hp] at hc
    cases w <;> cases all <;> cases hc

/-- The lock is available exactly when it has no holder, one thread at most is
between its `lock_acquire` and its `lock_release`, and if the lock is available
and somebody sleeps on it, a woken thread has not looked at it yet. While the
spinlock is held, this may be the release that has not woken it yet. -/
theorem run_excludes [Fintype C] (move : Client T C P σ L) (p : T → P) (x : σ) (as : List (T × L))
    (s : Kernel T C P σ) (hr : run move as (create p x) = .ok s) :
    (s.mem.available = true ↔ s.mem.holder = none) ∧
    (∀ t, between (s.place t) = true → s.mem.holder = some t) ∧
    (∀ t u, between (s.place t) = true → between (s.place u) = true → t = u) ∧
    (s.spin none = none → s.mem.available = true → s.chan none ≠ [] → ∃ t, unchecked (s.place t) = true) ∧
    (s.mem.available = true → s.chan none ≠ [] →
      ∃ t, unchecked (s.place t) = true ∨ releasing (s.place t) = true) := by
  have h := run_locked hr
  have hin : ∀ t, between (s.place t) = true → s.mem.holder = some t :=
    fun t ht => (h.holder t).mpr (holds_of_between ht)
  refine ⟨h.available, hin, ?_, ?_, ?_⟩
  · intro t u ht hu
    exact Option.some.inj ((hin t ht).symm.trans (hin u hu))
  · intro hfree hav hne
    obtain ⟨t, ht⟩ := h.woken hav hne
    refine ⟨t, ?_⟩
    have hnr : releasing (s.place t) = false := by
      by_contra hr
      have hsp : spins (s.place t) none = true := by
        cases hp : s.place t with
        | release r w q => cases r <;> simp_all [releasing, spins]
        | _ => simp_all [releasing]
      rw [← h.sound.spin, hfree] at hsp
      cases hsp
    simpa [willLook, hnr] using ht
  · intro hav hne
    obtain ⟨t, ht⟩ := h.woken hav hne
    exact ⟨t, by simpa [willLook] using ht⟩

/-- A client that calls whatever it is told to. -/
def obedient : Client T C Unit Unit (Call C) := fun call _ _ _ => .ok (call, (), ())

/-- Thread 0 has the lock, threads 1 and 2 sleep, thread 0 lets it go. -/
def contended : List (Fin 3 × Call (Fin 1)) :=
  [0, 0, 0, 0, 1, 1, 1, 1, 2, 2, 2, 2].map (·, .acquire) ++ [0, 0, 0, 0, 0].map (·, .release)

theorem contended_excludes :
    ∃ s, run obedient contended (create (fun _ => ()) ()) = .ok s ∧ s.spin none = none ∧
      s.mem.available = true ∧ s.chan none = [2] ∧ ∃ t, unchecked (s.place t) = true := by
  obtain ⟨s, hr, hspin, hav, hchan⟩ : ∃ s, run obedient contended (create (fun _ => ()) ()) = .ok s ∧
      s.spin none = none ∧ s.mem.available = true ∧ s.chan none = [2] := by decide +kernel
  exact ⟨s, hr, hspin, hav, hchan,
    (run_excludes obedient _ () contended s hr).2.2.2.1 hspin hav (by simp [hchan])⟩

end OS161.Synch
