import OS161.ThreadPlaces

/-!
# Runs of the scheduler

Wakeups, `thread_fork` and migration, and then any number of steps on any
number of CPUs.
-/

set_option autoImplicit false

namespace OS161.Scheduler

open Function OS161.Placement OS161.Runs OS161.Vfs

variable {C W : Type} [DecidableEq C] [DecidableEq W] {s s' : State C W} {c : C}

/-- The threads in hand belong there still, if there are any. -/
def Hand.Keeps (c : C) (h k : Hand C) : Prop :=
  h.list = [] ∨ (k.owner c = Option.none ∨ k.owner c = h.owner c) ∧
    (k.expects = Option.none ∨ k.expects = h.expects)

omit [DecidableEq W] in
theorem stays_of_hold {h : Hand C} (hhand : s'.hand = update s.hand c h) (htCpu : s'.tCpu = s.tCpu)
    (hh : (s.hand c).Keeps c h) : Stays s s' := by
  intro z t ht hstate hz
  by_cases hzc : z = .link (.hand c)
  · subst hzc
    obtain hempty | ⟨howner, hexpects⟩ := hh
    · change t ∈ (s.hand c).list at ht
      rw [hempty] at ht
      cases ht
    · constructor
      · intro d hd
        simp only [owner, hhand, update_self] at hd
        rw [htCpu]
        obtain hn | he := howner
        · rw [hn] at hd
          cases hd
        · exact hz.cpu d (he.symm.trans hd)
      · intro v hv
        simp only [expects, hhand, update_self] at hv
        rw [hstate]
        obtain hn | he := hexpects
        · rw [hn] at hv
          cases hv
        · exact hz.state v (he.symm.trans hv)
  · have howner : owner s' z = owner s z := by
      cases z with
      | link l => cases l <;> simp_all [owner]
      | _ => rfl
    have hexpects : expects s' z = expects s z := by
      cases z with
      | link l => cases l <;> simp_all [expects]
      | _ => rfl
    constructor
    · rw [howner, htCpu]
      exact hz.cpu
    · rw [hexpects, hstate]
      exact hz.state

/-- An operation goes on with the same threads in hand. -/
theorem Sound.hold_same (hs : Sound s) {h : Hand C} (hlist : h.list.Perm (s.hand c).list)
    (hkeeps : (s.hand c).Keeps c h) (hsteady : Steady (s.mode c) h (s.runqueue c).length) :
    Sound (s.hold c h) := by
  refine hs.stay ?_ (stays_of_hold rfl rfl hkeeps) rfl rfl ?_ (hs.steady_of c ?_ ?_)
  · exact frame_of_eq rfl rfl rfl rfl rfl (fun _ => .inl rfl)
  · intro z
    rw [holds_hold]
    by_cases hz : z = .link (.hand c)
    · subst hz
      simpa [holds, threadlist] using hlist
    · rw [update_of_ne hz]
  · intro d hd
    simp [State.hold, hd]
  · simpa [State.hold] using hsteady

/-- Threads at the head of a wait channel are taken off it. -/
theorem Sound.wake (hs : Sound s) (hr : s.ready c = true) {w : W} {ts l : List ℕ} (hq : s.wchan w = ts ++ l) :
    Sound ((s.setWchan w l).hold c (.waking ts)) := by
  obtain ⟨hm, hh⟩ := ready_iff.mp hr
  have hempty : (s.hand c).list = [] := by simp [hh, Hand.list]
  refine hs.move ?_ (stays_of_hold rfl rfl (.inl hempty)) rfl (.link (.wchan w)) (.link (.hand c)) (by simp)
    ts l ts ?_ ?_ ?_ (fun _ _ => rfl) ?_ (hs.steady_of c ?_ ?_)
  · exact frame_of_eq rfl rfl rfl rfl rfl (fun _ => .inl rfl)
  · rw [holds_hold, holds_setWchan]
    rfl
  · simp [holds, threadlist, hq]
  · simp [holds, threadlist, hempty]
  · intro t ht
    have hhome := hs.home (.link (.wchan w)) t (by simp [holds, threadlist, hq, ht])
    constructor
    · intro d hd
      simp [owner, State.hold, Hand.owner] at hd
    · intro v hv
      simp only [expects, State.hold, update_self, Hand.expects] at hv
      exact hhome.state v hv
  · intro d hd
    simp [State.hold, State.setWchan, hd]
  · simpa [State.hold, State.setWchan, Steady, Hand.Fits] using hm

theorem wchanWakeone_sound (hs : Sound s) (w : W) : Ensures (· = .blocked) Sound (wchanWakeone c w s) := by
  simp only [wchanWakeone]
  split
  · rfl
  next hr =>
  split
  · exact hs
  · next t ts hq => exact hs.wake (by simpa using hr) (show s.wchan w = [t] ++ ts from hq)

theorem wchanWakeall_sound (hs : Sound s) (w : W) : Ensures (· = .blocked) Sound (wchanWakeall c w s) := by
  simp only [wchanWakeall]
  split
  · rfl
  · next hr => exact hs.wake (by simpa using hr) (List.append_nil _).symm

/-- A thread that is at no run queue goes on the one of its CPU. `s'` is the
state without it. -/
theorem Sound.makeRunnable (hs : Sound s) {t : ℕ} {l : List ℕ} (x : Place C W)
    (hx : ∀ d, x ≠ .link (.runqueue d)) (ht : holds s x = t :: l) (hholds : holds s' = update (holds s) x l)
    (hf : ∀ d, Frame s ((s'.setState t .ready).enqueue d [t]))
    (hstays : ∀ d, Stays s ((s'.setState t .ready).enqueue d [t])) (hlive : s'.live = s.live)
    (hstate : s'.tState = s.tState) (hqueue : s'.runqueue = s.runqueue)
    (hsteady : ∀ d, Steady (s'.mode d) (s'.hand d) (s'.runqueue d).length) :
    Ensures (· = .blocked) Sound (threadMakeRunnable c t false s') := by
  have hin : t ∈ holds s x := by simp [ht]
  simp only [threadMakeRunnable]
  split
  · next hnone =>
    have htCpu : s'.tCpu = s.tCpu := (hf c).tCpu
    exact absurd (htCpu ▸ hnone) (hs.known t (hs.live_of_mem hin)).1
  next d hd =>
  simp only [Bool.false_eq_true, if_false]
  split
  · rfl
  refine hs.move (hf d) (hstays d) hlive x (.link (.runqueue d)) (hx d) [t] l (s.runqueue d ++ [t])
    ?_ ?_ ?_ ?_ ?_ ?_
  · rw [State.enqueue, holds_setRunqueue, holds_setState, hholds, ← hqueue]
    rfl
  · simp [ht]
  · rfl
  · intro u hu
    rw [← hstate]
    exact setState_of_ne (by simpa using hu)
  · intro u hu
    rw [List.mem_singleton.mp hu]
    constructor
    · intro e he
      cases he
      exact hd
    · intro v hv
      cases hv
      exact update_self ..
  · intro e
    refine (hsteady e).grow ?_
    by_cases he : e = d
    · subst he
      simp [State.enqueue, State.setRunqueue, State.setState]
    · simp [State.enqueue, State.setRunqueue, State.setState, he]

theorem waking_sound (hs : Sound s) {t : ℕ} {ts : List ℕ} (hh : s.hand c = .waking (t::ts)) :
    Ensures (· = .blocked) Sound (threadMakeRunnable c t false (s.hold c (.waking ts))) := by
  have hm := (hs.steady c).1 (by simp [hh])
  refine hs.makeRunnable (.link (.hand c)) (by simp) ?_ (holds_hold c _) ?_ ?_ rfl rfl rfl (hs.steady_of c ?_ ?_)
  · simp [holds, threadlist, hh, Hand.list]
  · intro d
    exact frame_of_eq rfl rfl rfl rfl rfl (fun _ => .inl rfl)
  · intro d
    exact stays_of_hold rfl rfl (.inr ⟨.inl rfl, .inr (by simp [hh, Hand.expects])⟩)
  · intro d hd
    simp [State.hold, hd]
  · simpa [State.hold, Steady, Hand.Fits] using hm

theorem holds_forked (u : ℕ) (o : Option ℕ) :
    holds { s with forked := update s.forked u o } = update (holds s) (.born u) o.toList := by
  ext1 z
  cases z with
  | link l => cases l <;> simp [holds, threadlist]
  | born v => by_cases hv : v = u <;> simp [holds, hv]
  | _ => simp [holds]

omit [DecidableEq C] [DecidableEq W] in
theorem forked_cleared (v u : ℕ) : update s.forked v none u = s.forked u ∨ update s.forked v none u = none := by
  by_cases hu : u = v
  · exact .inr (by simp [hu])
  · exact .inl (by simp [hu])

omit [DecidableEq C] [DecidableEq W] in
theorem Sound.parent_running (hs : Sound s) {t : ℕ} (ht : t ∈ holds s (.current c)) :
    s.live t = true ∧ (∀ d, t ∉ s.zombies d) ∧ ∀ v, s.forked v ≠ some t := by
  refine ⟨hs.live_of_mem ht, fun d hd => ?_, fun v hv => ?_⟩
  · cases hs.exact.unique _ _ _ ht (show t ∈ holds s (.link (.zombies d)) from hd)
  · cases hs.exact.unique _ _ _ ht (show t ∈ holds s (.born v) by simp [holds, hv])

theorem threadFork_sound (hs : Sound s) : Ensures (· = .blocked) Sound (threadFork c s) := by
  simp only [threadFork]
  split
  · rfl
  next hr =>
  obtain ⟨hm, hh, hf⟩ := calls_iff.mp (by simpa using hr)
  have hcur : s.curthread c ∈ holds s (.current c) := by simp [holds, hm, Mode.awake]
  have hfresh : ∀ t, s.live t = true → t ≠ s.next := fun t ht => ((hs.known t ht).2).ne
  have hnew : s.live s.next ≠ true := fun hl => hfresh _ hl rfl
  have hholds : holds (threadCreate c s) = update (holds s) (.born (s.curthread c)) [s.next] :=
    (holds_congr (s := { s with forked := update s.forked (s.curthread c) (some s.next) })
      rfl rfl rfl rfl rfl rfl rfl).trans (holds_forked _ _)
  refine ⟨?_, ?_, ?_, ?_, ?_, hs.steady⟩
  · apply hs.exact.insert (.born (s.curthread c)) s.next hnew
    · intro z hz
      rw [hholds, update_of_ne hz]
    · rw [hholds, update_self]
      simp [holds, hf]
    · intro u
      by_cases hu : u = s.next <;> simp [threadCreate, hu]
  · intro z t ht
    rw [hholds] at ht
    by_cases hz : z = .born (s.curthread c)
    · subst hz
      rw [update_self, List.mem_singleton] at ht
      constructor
      · intro d hd
        cases hd
      · intro v hv
        cases hv
        rw [ht]
        exact update_self ..
    · rw [update_of_ne hz] at ht
      have hne := hfresh t (hs.live_of_mem ht)
      have hhome := hs.home z t ht
      constructor
      · intro d hd
        exact (update_of_ne hne ..).trans (hhome.cpu d hd)
      · intro v hv
        exact (update_of_ne hne ..).trans (hhome.state v hv)
  · intro d
    obtain ⟨hd, hlt⟩ := hs.current d
    simp only [threadCreate, update_of_ne hlt.ne]
    exact ⟨hd, by omega⟩
  · intro t ht
    by_cases htn : t = s.next
    · simp [threadCreate, htn, (hs.current c).1]
    · have hk := hs.known t (by simpa [threadCreate, htn] using ht)
      simp only [threadCreate, update_of_ne htn]
      exact ⟨hk.1, by omega⟩
  · intro u hu
    have hok : s.live u = true ∧ (∀ d, u ∉ s.zombies d) ∧ ∀ v, s.forked v ≠ some u := by
      by_cases huc : u = s.curthread c
      · subst huc
        exact hs.parent_running hcur
      · exact hs.parent u (by simpa [threadCreate, huc] using hu)
    refine ⟨by simpa [threadCreate, hfresh u hok.1] using hok.1, hok.2.1, fun v hv => ?_⟩
    by_cases hvc : v = s.curthread c
    · simp [threadCreate, hvc, (hfresh u hok.1).symm] at hv
    · exact hok.2.2 v (by simpa [threadCreate, hvc] using hv)

theorem forkFails_sound (hs : Sound s) : Ensures (· = .blocked) Sound (forkFails c s) := by
  simp only [forkFails]
  split
  · rfl
  next hr =>
  split
  · rfl
  next t hf =>
  have hm : s.mode c = .running := by simp_all
  have hcur : s.curthread c ∈ holds s (.current c) := by simp [holds, hm, Mode.awake]
  have hin : t ∈ holds s (.born (s.curthread c)) := by simp [holds, hf]
  refine hs.destroy (.born (s.curthread c)) ?_ ?_ rfl rfl rfl (by simp [holds, hf]) (holds_forked _ none)
    hs.steady ?_ ?_
  · exact frame_of_eq rfl rfl rfl rfl rfl (forked_cleared _)
  · rintro u hu rfl
    obtain he | he := forked_cleared (s := s) (s.curthread c) u
    · exact (hs.parent u (he ▸ hu)).2.2 _ hf
    · exact hu he
  · rintro rfl
    exact (hs.parent_running hcur).2.2 _ hf
  · change s.tState t ≠ .run
    simp [(hs.home _ t hin).state _ rfl]

theorem forkQueues_sound (hs : Sound s) : Ensures (· = .blocked) Sound (forkQueues c s) := by
  simp only [forkQueues]
  split
  · rfl
  split
  · rfl
  next t hf =>
  refine hs.makeRunnable (.born (s.curthread c)) (by simp) ?_ (holds_forked _ none) ?_ ?_ rfl rfl rfl hs.steady
  · simp [holds, hf]
  · intro d
    exact frame_of_eq rfl rfl rfl rfl rfl (forked_cleared _)
  · intro d
    exact stays_of_hand rfl rfl

/-! Migration. -/

theorem considerMigration_sound (hs : Sound s) (allcpus : List C) :
    Ensures (· = .blocked) Sound (considerMigration allcpus c s) := by
  simp only [considerMigration]
  split
  · rfl
  next hr =>
  obtain ⟨hm, hh⟩ := ready_iff.mp (by simpa using hr)
  exact hs.hold_same (by simp [hh, Hand.list]) (.inl (by simp [hh, Hand.list])) ⟨fun _ => hm, Nat.zero_le _⟩

theorem count_sound (hs : Sound s) {allcpus rest : List C} {totalCount myCount : ℕ}
    (hh : s.hand c = .counting rest totalCount myCount) :
    Ensures (· = .blocked) Sound (count allcpus c s rest totalCount myCount) := by
  obtain ⟨hm, hfits⟩ := hs.steady c
  have hmode := hm (by simp [hh])
  have hkeeps : ∀ k, (s.hand c).Keeps c k := fun k => .inl (by simp [hh, Hand.list])
  simp only [hh, Hand.Fits] at hfits
  cases rest with
  | nil =>
    simp only [count]
    split
    · exact hs.hold_same (by simp [hh, Hand.list]) (hkeeps _) steady_none
    · refine hs.hold_same (by simp [hh, Hand.list]) (hkeeps _) ⟨fun _ => hmode, ?_⟩
      simp only [Hand.Fits]
      omega
  | cons d rest =>
    simp only [count]
    split
    · rfl
    refine hs.hold_same (by simp [hh, Hand.list]) (hkeeps _) ⟨fun _ => hmode, ?_⟩
    simp only [Hand.Fits]
    split
    · next hd => rw [hd]
    · exact hfits

theorem take_sound (hs : Sound s) {allcpus : List C} {toSend oneShare : ℕ}
    (hh : s.hand c = .taking toSend oneShare) :
    Ensures (· = .blocked) Sound (take allcpus c toSend oneShare s) := by
  obtain ⟨hm, hfits⟩ := hs.steady c
  have hmode := hm (by simp [hh])
  have hempty : (s.hand c).list = [] := by simp [hh, Hand.list]
  simp only [hh, Hand.Fits] at hfits
  simp only [take, if_pos hfits]
  refine hs.move ?_ (stays_of_hold rfl rfl (.inl hempty)) rfl (.link (.runqueue c)) (.link (.hand c)) (by simp)
    ((s.runqueue c).drop ((s.runqueue c).length - toSend))
    ((s.runqueue c).take ((s.runqueue c).length - toSend))
    ((s.runqueue c).drop ((s.runqueue c).length - toSend)) ?_ ?_ ?_ (fun _ _ => rfl) ?_ (hs.steady_of c ?_ ?_)
  · exact frame_of_eq rfl rfl rfl rfl rfl (fun _ => .inl rfl)
  · rw [holds_hold, holds_setRunqueue]
    rfl
  · conv_lhs => rw [holds, threadlist, ← List.take_append_drop ((s.runqueue c).length - toSend) (s.runqueue c)]
    exact List.perm_append_comm
  · simp [holds, threadlist, hempty]
  · intro t ht
    have hhome := hs.home (.link (.runqueue c)) t (List.mem_of_mem_drop ht)
    constructor
    · intro d hd
      simp only [owner, State.hold, update_self, Hand.owner] at hd
      exact hhome.cpu d hd
    · intro v hv
      simp only [expects, State.hold, update_self, Hand.expects] at hv
      exact hhome.state v hv
  · intro d hd
    simp [State.hold, State.setRunqueue, hd]
  · refine ⟨fun _ => ?_, ?_⟩
    · simpa [State.hold, State.setRunqueue] using hmode
    · simp only [State.hold, update_self, Hand.Fits, List.length_drop]
      omega

theorem holds_handOver {d : C} {t : ℕ} (h : Hand C) : holds ((migrate t d s).hold c h) =
    update (update (holds s) (.link (.hand c)) h.list) (.link (.runqueue d)) (s.runqueue d ++ [t]) := by
  rw [holds_hold, migrate, State.enqueue, holds_setRunqueue, update_comm (by simp)]
  rfl

/-- A victim that is not the current thread goes to another CPU. -/
theorem Sound.handOver (hs : Sound s) {d : C} (hd : d ≠ c) {rest : List C} {toSend oneShare t : ℕ}
    {ts : List ℕ} (hh : s.hand c = .sending rest (toSend+1) oneShare (t::ts)) (ht : t ≠ s.curthread c) :
    Sound ((migrate t d s).hold c (.sending rest toSend oneShare ts)) := by
  obtain ⟨hm, hfits⟩ := hs.steady c
  have hmode := hm (by simp [hh])
  simp only [hh, Hand.Fits, List.length_cons] at hfits
  have hhand : holds s (.link (.hand c)) = t :: ts := by simp [holds, threadlist, hh, Hand.list]
  have hin : t ∈ holds s (.link (.hand c)) := by simp [hhand]
  have hhome := hs.home _ t hin
  have hcpu : s.tCpu t = some c := hhome.cpu c (by simp [owner, hh, Hand.owner])
  have hkeeps : (s.hand c).Keeps c (.sending rest toSend oneShare ts) :=
    .inr (by simp [hh, Hand.owner, Hand.expects])
  -- the only CPU it can be the current thread of is its own
  have hcur : ∀ e, s.curthread e ≠ t := by
    rintro e rfl
    have he := (hs.current e).1.symm.trans hcpu
    exact ht (by rw [Option.some.inj he])
  have hexact : Exact (holds ((migrate t d s).hold c (.sending rest toSend oneShare ts)))
      (fun u => s.live u = true) := by
    rw [holds_handOver]
    apply hs.exact.exchange (.link (.hand c)) (.link (.runqueue d)) (by simp)
    · intro z hz hz'
      rw [update_of_ne hz', update_of_ne hz]
    · rw [update_of_ne (by simp), update_self, update_self, ← List.append_assoc, hhand]
      exact List.perm_append_singleton t (ts ++ s.runqueue d)
  refine ⟨hexact, ?_, ?_, ?_, hs.parent, hs.steady_of c ?_ ?_⟩
  · intro z u hu
    by_cases hut : u = t
    · subst hut
      have hto : u ∈ holds ((migrate u d s).hold c (.sending rest toSend oneShare ts)) (.link (.runqueue d)) := by
        simp [holds_handOver]
      rw [hexact.unique _ _ _ hu hto]
      constructor
      · intro e he
        cases he
        exact update_self ..
      · intro v hv
        exact hhome.state v (by simpa [expects, hh, Hand.expects] using hv)
    · have hold : u ∈ holds s z := by
        rw [holds_handOver] at hu
        by_cases hzd : z = .link (.runqueue d)
        · subst hzd
          simpa [holds, threadlist, hut] using hu
        by_cases hzc : z = .link (.hand c)
        · subst hzc
          rw [update_of_ne hzd, update_self] at hu
          exact hhand ▸ List.mem_cons_of_mem t hu
        · rwa [update_of_ne hzd, update_of_ne hzc] at hu
      have hstays : Stays s (s.hold c (.sending rest toSend oneShare ts)) := stays_of_hold rfl rfl hkeeps
      have hstill := hstays z u hold rfl (hs.home z u hold)
      constructor
      · intro e he
        exact (update_of_ne hut ..).trans (hstill.cpu e he)
      · exact hstill.state
  · intro e
    change update s.tCpu t (some d) (s.curthread e) = some e ∧ s.curthread e < s.next
    rw [update_of_ne (hcur e)]
    exact hs.current e
  · intro u hu
    change update s.tCpu t (some d) u ≠ none ∧ u < s.next
    by_cases hut : u = t
    · rw [hut, update_self]
      exact ⟨by simp, (hs.known t (hs.live_of_mem hin)).2⟩
    · rw [update_of_ne hut]
      exact hs.known u hu
  · intro e he
    by_cases hed : e = d
    · subst hed
      simp [State.hold, migrate, State.enqueue, State.setRunqueue, he]
    · simp [State.hold, migrate, State.enqueue, State.setRunqueue, he, hed]
  · refine ⟨fun _ => hmode, ?_⟩
    simp only [State.hold, update_self, Hand.Fits]
    omega

omit [DecidableEq W] in
theorem hold_hold (h k : Hand C) : (s.hold c h).hold c k = s.hold c k := by
  simp [State.hold]

omit [DecidableEq W] in
theorem migrate_hold {d : C} {t : ℕ} {h k : Hand C} :
    (migrate t d (s.hold c h)).hold c k = (migrate t d s).hold c k := by
  simp [State.hold, migrate, State.enqueue, State.setRunqueue]

theorem sendTo_sound {d : C} (hd : d ≠ c) {rest : List C} {oneShare toSend : ℕ} {victims : List ℕ}
    (hs : Sound (s.hold c (.sending rest toSend oneShare victims))) :
    Ensures (· = .blocked) Sound (sendTo c d rest oneShare toSend victims s) := by
  -- every turn gives up one thread to send, whether it sends it or not
  induction toSend generalizing s victims with
  | zero => exact hs
  | succ toSend ih =>
    obtain ⟨hm, hfits⟩ := hs.steady c
    simp only [State.hold, update_self, Hand.Fits] at hm hfits
    rw [sendTo.eq_def]
    simp only
    split
    · cases victims with
      | nil => simp at hfits
      | cons t ts =>
        simp only
        split
        · apply ih
          rw [← hold_hold (.sending rest (toSend+1) oneShare (t::ts))]
          refine hs.hold_same ?_ (.inr ?_) ⟨fun _ => ?_, ?_⟩
          · simp [State.hold, Hand.list]
          · simp [State.hold, Hand.owner, Hand.expects]
          · exact hm (by simp)
          · simp [Hand.Fits] at hfits ⊢
            omega
        · next hne =>
          apply ih
          rw [← migrate_hold]
          exact hs.handOver hd (by simp [State.hold]) hne
    · exact hs

theorem send_sound (hs : Sound s) {rest : List C} {toSend oneShare : ℕ} {victims : List ℕ}
    (hh : s.hand c = .sending rest toSend oneShare victims) :
    Ensures (· = .blocked) Sound (send c s rest toSend oneShare victims) := by
  obtain ⟨hm, hfits⟩ := hs.steady c
  have hmode := hm (by simp [hh])
  simp only [hh, Hand.Fits] at hfits
  have hreturn : Sound (s.hold c (.returning victims)) := hs.hold_same (by simp [hh, Hand.list])
    (.inr (by simp [hh, Hand.owner, Hand.expects])) ⟨fun _ => hmode, trivial⟩
  have hgoOn : ∀ rest', Sound (s.hold c (.sending rest' toSend oneShare victims)) :=
    fun _ => hs.hold_same (by simp [hh, Hand.list]) (.inr (by simp [hh, Hand.owner, Hand.expects]))
      ⟨fun _ => hmode, hfits⟩
  cases rest with
  | nil => exact hreturn
  | cons d rest =>
    simp only [send]
    split
    · exact hreturn
    split
    · exact hgoOn rest
    next hd =>
    split
    · rfl
    · exact sendTo_sound hd (hgoOn rest)

theorem return_sound (hs : Sound s) {victims : List ℕ} (hh : s.hand c = .returning victims) :
    Sound ((s.enqueue c victims).hold c .none) := by
  have hhand : holds s (.link (.hand c)) = victims := by simp [holds, threadlist, hh, Hand.list]
  refine hs.move ?_ (stays_of_hold rfl rfl (.inr ⟨.inl rfl, .inl rfl⟩)) rfl (.link (.hand c)) (.link (.runqueue c))
    (by simp) victims [] (s.runqueue c ++ victims) ?_ ?_ ?_ (fun _ _ => rfl) ?_ (hs.steady_of c ?_ ?_)
  · exact frame_of_eq rfl rfl rfl rfl rfl (fun _ => .inl rfl)
  · rw [holds_hold, State.enqueue, holds_setRunqueue, update_comm (by simp)]
    rfl
  · simp [hhand]
  · rfl
  · intro t ht
    have hhome := hs.home (.link (.hand c)) t (by rwa [hhand])
    constructor
    · intro d hd
      exact hhome.cpu d (by simpa [owner, hh, Hand.owner] using hd)
    · intro v hv
      exact hhome.state v (by simpa [expects, hh, Hand.expects] using hv)
  · intro d hd
    simp [State.hold, State.enqueue, State.setRunqueue, hd]
  · simpa [State.hold] using steady_none

theorem operate_sound (hs : Sound s) (allcpus : List C) :
    Ensures (· = .blocked) Sound (operate allcpus c s) := by
  simp only [operate]
  split
  · next hh => exact threadSwitch_sound hs hh
  · next hh => exact hs.hold_same (by simp [hh, Hand.list]) (.inl (by simp [hh, Hand.list])) steady_none
  · next t ts hh => exact waking_sound hs hh
  · next hh => exact count_sound hs hh
  · next hh => exact take_sound hs hh
  · next hh => exact send_sound hs hh
  · next hh => exact return_sound hs hh

theorem step_sound (allcpus : List C) (a : C × Action W) (s : State C W) (hs : Sound s) :
    Ensures (· = .blocked) Sound (step allcpus a s) := by
  obtain ⟨c, a⟩ := a
  cases a with
  | threadYield => exact threadYield_sound hs c
  | wchanSleep w => exact wchanSleep_sound hs c w
  | threadExit => exact threadExit_sound hs c
  | wchanWakeone w => exact wchanWakeone_sound hs w
  | wchanWakeall w => exact wchanWakeall_sound hs w
  | threadFork => exact threadFork_sound hs
  | forkFails => exact forkFails_sound hs
  | forkQueues => exact forkQueues_sound hs
  | considerMigration => exact considerMigration_sound hs allcpus
  | resume => exact operate_sound hs allcpus

omit [DecidableEq W] in
theorem mem_boot {n t : ℕ} {x : Place (Fin n) W} :
    t ∈ holds (boot n) x ↔ ∃ c : Fin n, x = .current c ∧ c.val = t := by
  cases x with
  | link l => cases l <;> simp [holds, threadlist, boot, Hand.list]
  | current c => simp [holds, boot, Mode.awake, eq_comm]
  | _ => simp [holds, boot, Mode.chosen]

omit [DecidableEq W] in
theorem boot_sound (n : ℕ) : Sound (boot (W := W) n) := by
  refine ⟨⟨?_, ?_, ?_⟩, ?_, ?_, ?_, ?_, ?_⟩
  · intro x
    cases x with
    | link l => cases l <;> simp [holds, threadlist, boot, Hand.list]
    | _ => simp [holds, boot, Mode.awake, Mode.chosen]
  · intro x y t hx hy
    obtain ⟨c, rfl, hc⟩ := mem_boot.mp hx
    obtain ⟨d, rfl, hd⟩ := mem_boot.mp hy
    rw [Fin.val_injective (hc.trans hd.symm)]
  · intro t
    have hlive : (boot (W := W) n).live t = true ↔ t < n := by simp [boot]
    simp only [mem_boot, hlive]
    constructor
    · intro ht
      exact ⟨_, ⟨t, ht⟩, rfl, rfl⟩
    · rintro ⟨_, c, _, hc⟩
      exact hc ▸ c.isLt
  · intro x t ht
    obtain ⟨c, rfl, rfl⟩ := mem_boot.mp ht
    constructor
    · intro d hd
      cases hd
      simp [boot]
    · intro v hv
      cases hv
  · intro c
    simp [boot]
  · intro t ht
    have hlt : t < n := by simpa [boot] using ht
    simp [boot, hlt]
  · intro u hu
    exact absurd rfl hu
  · intro c
    exact steady_none

/-- The invariant of whole runs. -/
theorem run_sound {n : ℕ} (as : List (Fin n × Action W)) :
    Ensures (· = .blocked) Sound (run (List.finRange n) as (boot n)) :=
  run_ensures (step_sound (List.finRange n)) (boot_sound n)

/-- A thread is in a local variable: of a wakeup or of a migration, of
`thread_switch`, or of `thread_fork`. -/
def InTransit (s : State C W) (t : ℕ) : Prop :=
  (∃ c, t ∈ (s.hand c).list) ∨ (∃ c, s.mode c = .switching t) ∨ ∃ u, s.live u = true ∧ s.forked u = some t

/-- None of the assertions fails, and no loop follows a null pointer. -/
theorem run_stops {n : ℕ} {as : List (Fin n × Action W)} {e : Stop}
    (hr : run (List.finRange n) as (boot n) = .error e) : e = .blocked := by
  have he := run_sound as
  rwa [hr] at he

theorem run_placed {n : ℕ} (as : List (Fin n × Action W)) (s : State (Fin n) W)
    (hr : run (List.finRange n) as (boot n) = .ok s) :
    (∀ l, (threadlist s l).Nodup) ∧
      (∀ l k t, t ∈ threadlist s l → t ∈ threadlist s k → l = k) ∧
      (∀ c t, t ∈ s.runqueue c → s.tCpu t = some c) ∧
      Injective s.curthread ∧
      (∀ c d, s.curthread c ∈ s.runqueue d → c = d) ∧
      ∀ t, s.live t = true → (∃ c, s.curthread c = t) ∨ (∃ c, t ∈ s.runqueue c) ∨ (∃ w, t ∈ s.wchan w) ∨
        (∃ c, t ∈ s.zombies c) ∨ InTransit s t := by
  have hs : Sound s := by
    have hrun := run_sound as
    rwa [hr] at hrun
  have hqueue : ∀ c t, t ∈ s.runqueue c → s.tCpu t = some c :=
    fun c t ht => (hs.home (.link (.runqueue c)) t ht).cpu c rfl
  refine ⟨fun l => hs.exact.nodup (.link l), ?_, hqueue, ?_, ?_, ?_⟩
  · intro l k t hl hk
    simpa using hs.exact.unique (.link l) (.link k) t hl hk
  · intro c d hcd
    have hc := (hs.current c).1
    rw [hcd, (hs.current d).1] at hc
    exact (Option.some.inj hc).symm
  · intro c d hd
    exact Option.some.inj ((hs.current c).1.symm.trans (hqueue d _ hd))
  · intro t ht
    obtain ⟨x, hx⟩ := (hs.exact.covers t).mp ht
    cases x with
    | link l => cases l with
      | runqueue c => exact .inr (.inl ⟨c, hx⟩)
      | zombies c => exact .inr (.inr (.inr (.inl ⟨c, hx⟩)))
      | wchan w => exact .inr (.inr (.inl ⟨w, hx⟩))
      | hand c => exact .inr (.inr (.inr (.inr (.inl ⟨c, hx⟩))))
    | current c =>
      have hc : s.curthread c = t := by
        simp only [holds, Mode.awake] at hx
        split at hx <;> simp_all
      exact .inl ⟨c, hc⟩
    | next c =>
      have hm : s.mode c = .switching t := by
        simp only [holds, Mode.chosen] at hx
        split at hx <;> simp_all
      exact .inr (.inr (.inr (.inr (.inr (.inl ⟨c, hm⟩)))))
    | born u =>
      have hf : s.forked u = some t := by simpa [holds] using hx
      exact .inr (.inr (.inr (.inr (.inr (.inr ⟨u, (hs.parent u (by simp [hf])).1, hf⟩)))))

def resumes (k : ℕ) : List (Fin 2 × Action Unit) := List.replicate k (1, .resume)

/-- Threads 1 and 2 sleep, and their CPU is idle with thread 1 still the
current one. The other CPU wakes both; then the timer interrupt comes. -/
def skipped : List (Fin 2 × Action Unit) := List.flatten
  [[(1, .threadFork), (1, .forkQueues), (1, .threadYield)], resumes 4, [(1, .wchanSleep ())], resumes 4,
    [(1, .wchanSleep ())], resumes 1, [(0, .wchanWakeall ()), (0, .resume), (0, .resume)],
    [(1, .considerMigration)], resumes 4]

theorem skipped_placed :
    ∃ s, run (List.finRange 2) skipped (boot 2) = .ok s ∧ s.mode 1 = .idling ∧ s.runqueue 1 = [2] ∧
      s.curthread 1 = 1 ∧ s.hand 1 = .sending (List.finRange 2) 1 1 [1] ∧ Injective s.curthread := by
  obtain ⟨s, hr, hm, hq, hc, hh⟩ :
      ∃ s, run (List.finRange 2) skipped (boot 2) = .ok s ∧ s.mode 1 = .idling ∧ s.runqueue 1 = [2] ∧
        s.curthread 1 = 1 ∧ s.hand 1 = .sending (List.finRange 2) 1 1 [1] := by decide +kernel
  exact ⟨s, hr, hm, hq, hc, hh, (run_placed skipped s hr).2.2.2.1⟩

end OS161.Scheduler
