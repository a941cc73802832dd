import OS161.Placement
import OS161.Scheduler

/-!
# Where a thread is

A live thread is linked on one list, or runs, or is in a local variable of
`thread_switch` or `thread_fork`, and only one of these. A thread that is the
current one of an idle CPU may be on a list as well; what keeps it from going
to another CPU is that its CPU does not hand it over.
-/

set_option autoImplicit false

namespace OS161.Scheduler

open Function OS161.Placement OS161.Runs OS161.Vfs
open scoped List

/-- The lists threads are linked on. -/
inductive Link (C W : Type) where
  | runqueue (c : C)
  | zombies (c : C)
  | wchan (w : W)
  | hand (c : C)
  deriving DecidableEq

inductive Place (C W : Type) where
  | link (l : Link C W)
  | current (c : C)
  | next (c : C)
  | born (u : ℕ)
  deriving DecidableEq

/-- The current thread, if it runs and has not been queued. -/
def Mode.awake (t : ℕ) : Mode → List ℕ
  | .running | .arriving | .exorcising => [t]
  | _ => []

def Mode.chosen : Mode → List ℕ
  | .switching t => [t]
  | _ => []

/-- The threads in hand come from the run queue of the CPU. -/
def Hand.owner {C : Type} (c : C) : Hand C → Option C
  | .sending _ _ _ _ | .returning _ => some c
  | _ => Option.none

def Hand.expects {C : Type} : Hand C → Option ThreadState
  | .waking _ => some .sleep
  | .sending _ _ _ _ | .returning _ => some .ready
  | _ => Option.none

/-- No loop over a run queue or over the victims runs out of threads. -/
def Hand.Fits {C : Type} (queued : ℕ) : Hand C → Prop
  | .counting _ _ myCount => myCount ≤ queued
  | .taking toSend _ => toSend ≤ queued
  | .sending _ toSend _ victims => toSend ≤ victims.length
  | _ => True

/-- Interrupts are off while a CPU switches. -/
def Steady {C : Type} (m : Mode) (h : Hand C) (queued : ℕ) : Prop :=
  (h ≠ .none → m = .running ∨ m = .idling) ∧ h.Fits queued

variable {C W : Type}

def threadlist (s : State C W) : Link C W → List ℕ
  | .runqueue c => s.runqueue c
  | .zombies c => s.zombies c
  | .wchan w => s.wchan w
  | .hand c => (s.hand c).list

def holds (s : State C W) : Place C W → List ℕ
  | .link l => threadlist s l
  | .current c => (s.mode c).awake (s.curthread c)
  | .next c => (s.mode c).chosen
  | .born u => (s.forked u).toList

/-- The CPU all threads at a place belong to, if they belong to one. -/
def owner (s : State C W) : Place C W → Option C
  | .link (.runqueue c) | .current c | .next c => some c
  | .link (.hand c) => (s.hand c).owner c
  | _ => none

/-- The state of all threads at a place. A boot thread runs without having been
set to `S_RUN`. -/
def expects (s : State C W) : Place C W → Option ThreadState
  | .link (.runqueue _) | .next _ | .born _ => some .ready
  | .link (.zombies _) => some .zombie
  | .link (.wchan _) => some .sleep
  | .link (.hand c) => (s.hand c).expects
  | .current _ => none

structure AtHome (s : State C W) (x : Place C W) (t : ℕ) : Prop where
  cpu : ∀ c, owner s x = some c → s.tCpu t = some c
  state : ∀ v, expects s x = some v → s.tState t = v

structure Sound (s : State C W) : Prop where
  exact : Exact (holds s) (fun t => s.live t = true)
  home : ∀ x, ∀ t ∈ holds s x, AtHome s x t
  current : ∀ c, s.tCpu (s.curthread c) = some c ∧ s.curthread c < s.next
  known : ∀ t, s.live t = true → s.tCpu t ≠ none ∧ t < s.next
  parent : ∀ u, s.forked u ≠ none → s.live u = true ∧ (∀ c, u ∉ s.zombies c) ∧ ∀ v, s.forked v ≠ some u
  steady : ∀ c, Steady (s.mode c) (s.hand c) (s.runqueue c).length

/-- What a step that creates no thread leaves alone. -/
structure Frame (s s' : State C W) : Prop where
  tCpu : s'.tCpu = s.tCpu
  next : s'.next = s.next
  live : ∀ t, s'.live t = true → s.live t = true
  current : ∀ c, s'.curthread c = s.curthread c ∨ s'.curthread c ∈ holds s (.next c)
  forked : ∀ u, s'.forked u = s.forked u ∨ s'.forked u = none
  parent : ∀ u, s'.forked u ≠ none → s.live u = true → (∀ c, u ∉ s.zombies c) → (∀ v, s.forked v ≠ some u) →
    s'.live u = true ∧ ∀ c, u ∉ s'.zombies c

/-- Whoever stays at a place still belongs there, if its own state is the same. -/
def Stays (s s' : State C W) : Prop :=
  ∀ z, ∀ t ∈ holds s z, s'.tState t = s.tState t → AtHome s z t → AtHome s' z t

variable {s s' : State C W} {m : Mode} {h : Hand C} {q q' : ℕ}

theorem steady_none : Steady (C := C) m .none q := ⟨fun hn => absurd rfl hn, trivial⟩

theorem Steady.grow (hs : Steady m h q) (hq : q ≤ q') : Steady m h q' := by
  refine ⟨hs.1, ?_⟩
  have hf := hs.2
  cases h <;> simp only [Hand.Fits] at * <;> omega

theorem Sound.live_of_mem (hs : Sound s) {x : Place C W} {t : ℕ} (ht : t ∈ holds s x) : s.live t = true :=
  (hs.exact.covers t).mpr ⟨x, ht⟩

theorem holds_congr (hrunqueue : s'.runqueue = s.runqueue) (hzombies : s'.zombies = s.zombies)
    (hwchan : s'.wchan = s.wchan) (hhand : s'.hand = s.hand) (hmode : s'.mode = s.mode)
    (hcurthread : s'.curthread = s.curthread) (hforked : s'.forked = s.forked) : holds s' = holds s := by
  ext1 z
  cases z with
  | link l => cases l <;> simp [holds, threadlist, hrunqueue, hzombies, hwchan, hhand]
  | _ => simp [holds, hmode, hcurthread, hforked]

theorem Sound.frame (hs : Sound s) (hf : Frame s s') (hexact : Exact (holds s') (fun t => s'.live t = true))
    (hhome : ∀ z, ∀ t ∈ holds s' z, AtHome s' z t)
    (hsteady : ∀ c, Steady (s'.mode c) (s'.hand c) (s'.runqueue c).length) : Sound s' := by
  refine ⟨hexact, hhome, ?_, ?_, ?_, hsteady⟩
  · intro c
    rw [hf.tCpu, hf.next]
    obtain hc | hc := hf.current c
    · rw [hc]
      exact hs.current c
    · exact ⟨(hs.home (.next c) _ hc).cpu c rfl, (hs.known _ (hs.live_of_mem hc)).2⟩
  · intro t ht
    rw [hf.tCpu, hf.next]
    exact hs.known t (hf.live t ht)
  · intro u hu
    obtain ⟨hl, hout, hborn⟩ := hs.parent u (by
      rw [← (hf.forked u).resolve_right hu]
      exact hu)
    obtain ⟨hl', hout'⟩ := hf.parent u hu hl hout hborn
    refine ⟨hl', hout', fun v hv => hborn v ?_⟩
    obtain he | he := hf.forked v
    · rwa [he] at hv
    · rw [he] at hv
      cases hv

theorem Sound.stay (hs : Sound s) (hf : Frame s s') (hstays : Stays s s') (hlive : s'.live = s.live)
    (hstate : s'.tState = s.tState) (hholds : ∀ z, (holds s' z).Perm (holds s z))
    (hsteady : ∀ c, Steady (s'.mode c) (s'.hand c) (s'.runqueue c).length) : Sound s' := by
  refine hs.frame hf ?_ ?_ hsteady
  · rw [hlive]
    exact hs.exact.reorder hholds
  · intro z t ht
    have hold := (hholds z).mem_iff.mp ht
    exact hstays z t hold (by rw [hstate]) (hs.home z t hold)

theorem frame_of_eq (htCpu : s'.tCpu = s.tCpu) (hlive : s'.live = s.live) (hnext : s'.next = s.next)
    (hcurthread : s'.curthread = s.curthread) (hzombies : s'.zombies = s.zombies)
    (hforked : ∀ u, s'.forked u = s.forked u ∨ s'.forked u = none) : Frame s s' := by
  refine ⟨htCpu, hnext, ?_, ?_, hforked, ?_⟩
  · intro t ht
    rwa [hlive] at ht
  · intro c
    exact .inl (by rw [hcurthread])
  · intro u _ hl hout _
    rw [hlive, hzombies]
    exact ⟨hl, hout⟩

theorem stays_of_hand (hhand : s'.hand = s.hand) (htCpu : s'.tCpu = s.tCpu) : Stays s s' := by
  intro z t _ hstate hz
  have howner : owner s' z = owner s z := by
    cases z with
    | link l => cases l <;> simp [owner, hhand]
    | _ => rfl
  have hexpects : expects s' z = expects s z := by
    cases z with
    | link l => cases l <;> simp [expects, hhand]
    | _ => rfl
  constructor
  · rw [howner, htCpu]
    exact hz.cpu
  · rw [hexpects, hstate]
    exact hz.state

/-- One CPU works; the run queues of the others do not get shorter. -/
theorem Sound.steady_of (hs : Sound s) (c : C)
    (hrest : ∀ d, d ≠ c → s'.mode d = s.mode d ∧ s'.hand d = s.hand d ∧
      (s.runqueue d).length ≤ (s'.runqueue d).length)
    (hc : Steady (s'.mode c) (s'.hand c) (s'.runqueue c).length) (d : C) :
    Steady (s'.mode d) (s'.hand d) (s'.runqueue d).length := by
  by_cases hd : d = c
  · rw [hd]
    exact hc
  · obtain ⟨hm, hh, hq⟩ := hrest d hd
    rw [hm, hh]
    exact (hs.steady d).grow hq

variable [DecidableEq C] [DecidableEq W]

/-- The threads `ts` go from one place to another one. -/
theorem Sound.move (hs : Sound s) (hf : Frame s s') (hstays : Stays s s') (hlive : s'.live = s.live)
    (x y : Place C W) (hxy : x ≠ y) (ts l k : List ℕ) (hholds : holds s' = update (update (holds s) x l) y k)
    (hl : (holds s x).Perm (ts ++ l)) (hk : k.Perm (holds s y ++ ts))
    (hstate : ∀ t, t ∉ ts → s'.tState t = s.tState t) (hto : ∀ t ∈ ts, AtHome s' y t)
    (hsteady : ∀ c, Steady (s'.mode c) (s'.hand c) (s'.runqueue c).length) : Sound s' := by
  have hx : holds s' x = l := by simp [hholds, hxy]
  have hy : holds s' y = k := by simp [hholds]
  have hexact : Exact (holds s') (fun t => s'.live t = true) := by
    rw [hlive]
    apply hs.exact.exchange x y hxy
    · intro z hzx hzy
      simp [hholds, hzx, hzy]
    · rw [hx, hy]
      calc l ++ k ~ l ++ (holds s y ++ ts) := hk.append_left l
        _ ~ l ++ (ts ++ holds s y) := List.perm_append_comm.append_left l
        _ ~ ts ++ l ++ holds s y := by
          rw [← List.append_assoc]
          exact List.perm_append_comm.append_right _
        _ ~ holds s x ++ holds s y := hl.symm.append_right _
  refine hs.frame hf hexact ?_ hsteady
  · intro z t ht
    by_cases hts : t ∈ ts
    · have hgone : z = y := hexact.unique z y t ht (by
        rw [hy]
        exact hk.mem_iff.mpr (List.mem_append_right _ hts))
      exact hgone ▸ hto t hts
    · have hold : t ∈ holds s z := by
        by_cases hzy : z = y
        · subst hzy
          rw [hy, hk.mem_iff, List.mem_append] at ht
          exact ht.resolve_right hts
        by_cases hzx : z = x
        · subst hzx
          rw [hx] at ht
          exact hl.mem_iff.mpr (List.mem_append_right _ ht)
        · rwa [hholds, update_of_ne hzy, update_of_ne hzx] at ht
      exact hstays z t hold (hstate t hts) (hs.home z t hold)

/-! What the setters do to the places. -/

theorem holds_relink {l : Link C W} {ts : List ℕ} (hmode : s'.mode = s.mode)
    (hcurthread : s'.curthread = s.curthread) (hforked : s'.forked = s.forked)
    (hlist : threadlist s' = update (threadlist s) l ts) : holds s' = update (holds s) (.link l) ts := by
  ext1 z
  cases z with
  | link j => simp [holds, hlist, update_apply]
  | current d => simp [holds, hmode, hcurthread]
  | next d => simp [holds, hmode]
  | born u => simp [holds, hforked]

theorem holds_setRunqueue (c : C) (ts : List ℕ) :
    holds (s.setRunqueue c ts) = update (holds s) (.link (.runqueue c)) ts := by
  refine holds_relink rfl rfl rfl ?_
  ext1 l
  cases l <;> simp [threadlist, State.setRunqueue, update_apply]

theorem holds_setZombies (c : C) (ts : List ℕ) :
    holds (s.setZombies c ts) = update (holds s) (.link (.zombies c)) ts := by
  refine holds_relink rfl rfl rfl ?_
  ext1 l
  cases l <;> simp [threadlist, State.setZombies, update_apply]

theorem holds_setWchan (w : W) (ts : List ℕ) :
    holds (s.setWchan w ts) = update (holds s) (.link (.wchan w)) ts := by
  refine holds_relink rfl rfl rfl ?_
  ext1 l
  cases l <;> simp [threadlist, State.setWchan, update_apply]

theorem holds_hold (c : C) (h : Hand C) :
    holds (s.hold c h) = update (holds s) (.link (.hand c)) h.list := by
  refine holds_relink rfl rfl rfl ?_
  ext1 l
  cases l with
  | hand d => by_cases hd : d = c <;> simp [threadlist, State.hold, hd]
  | _ => simp [threadlist, State.hold]

theorem holds_enter (c : C) (m : Mode) :
    holds (s.enter c m) =
      update (update (holds s) (.current c) (m.awake (s.curthread c))) (.next c) m.chosen := by
  ext1 z
  cases z with
  | link l => cases l <;> simp [holds, threadlist, State.enter]
  | current d => by_cases hd : d = c <;> simp [holds, State.enter, hd]
  | next d => by_cases hd : d = c <;> simp [holds, State.enter, hd]
  | born u => simp [holds, State.enter]

/-- Only whether the current thread is queued changes. -/
theorem holds_enter_current {c : C} {m : Mode} (hm : m.chosen = (s.mode c).chosen) :
    holds (s.enter c m) = update (holds s) (.current c) (m.awake (s.curthread c)) := by
  rw [holds_enter, update_eq_self_iff]
  simpa [holds] using hm

theorem holds_enter_next {c : C} {m : Mode}
    (hm : m.awake (s.curthread c) = (s.mode c).awake (s.curthread c)) :
    holds (s.enter c m) = update (holds s) (.next c) m.chosen := by
  have hcurrent : update (holds s) (.current c) (m.awake (s.curthread c)) = holds s :=
    update_eq_self_iff.mpr (by simpa [holds] using hm)
  rw [holds_enter, hcurrent]

omit [DecidableEq C] [DecidableEq W] in
theorem holds_setState (t : ℕ) (v : ThreadState) : holds (s.setState t v) = holds s :=
  holds_congr rfl rfl rfl rfl rfl rfl rfl

omit [DecidableEq C] [DecidableEq W] in
theorem setState_of_ne {t u : ℕ} {v : ThreadState} (hu : u ≠ t) : (s.setState t v).tState u = s.tState u := by
  simp [State.setState, hu]

/-! The operations, one by one. -/

omit [DecidableEq W] in
theorem ready_iff {c : C} :
    s.ready c = true ↔ (s.mode c = .running ∨ s.mode c = .idling) ∧ s.hand c = .none := by
  simp [State.ready]

omit [DecidableEq W] in
theorem calls_iff {c : C} :
    s.calls c = true ↔ s.mode c = .running ∧ s.hand c = .none ∧ s.forked (s.curthread c) = none := by
  simp [State.calls, and_assoc]

/-- The current thread goes on the list `l`, and its CPU looks for another one. -/
theorem Sound.leave (hs : Sound s) {c : C} (hm : s.mode c = .running) (hh : s.hand c = .none) (l : Link C W)
    (v : ThreadState) (hf : Frame s (s'.leave c v)) (hlive : s'.live = s.live) (hmode : s'.mode = s.mode)
    (hhand : s'.hand = s.hand) (hqueue : ∀ d, d ≠ c → s'.runqueue d = s.runqueue d)
    (hcurthread : s'.curthread = s.curthread)
    (hstate : ∀ t, t ≠ s.curthread c → s'.tState t = s.tState t)
    (hholds : holds s' = update (holds s) (.link l) (threadlist s l ++ [s.curthread c]))
    (hl : AtHome (s'.leave c v) (.link l) (s.curthread c)) : Sound (s'.leave c v) := by
  have hchosen : Mode.chosen .picking = ((s'.setState (s'.curthread c) v).mode c).chosen := by
    change [] = (s'.mode c).chosen
    simp [hmode, hm, Mode.chosen]
  refine hs.move hf (stays_of_hand hhand hf.tCpu) hlive (.current c) (.link l) (by simp) [s.curthread c] []
    (threadlist s l ++ [s.curthread c]) ?_ ?_ ?_ ?_ ?_ (hs.steady_of c ?_ ?_)
  · rw [State.leave, holds_enter_current hchosen, holds_setState, hholds, update_comm (by simp)]
    rfl
  · simp [holds, hm, Mode.awake]
  · exact List.Perm.refl _
  · intro t ht
    have hne : t ≠ s.curthread c := by simpa using ht
    change (s'.setState (s'.curthread c) v).tState t = s.tState t
    rw [hcurthread, setState_of_ne hne, hstate t hne]
  · intro t ht
    rw [List.mem_singleton.mp ht]
    exact hl
  · intro d hd
    simp [State.leave, State.setState, State.enter, hd, hmode, hhand, hqueue d hd]
  · simpa [State.leave, State.setState, State.enter, hhand, hh] using steady_none

theorem threadYield_sound (hs : Sound s) (c : C) : Ensures (· = .blocked) Sound (threadYield c s) := by
  simp only [threadYield, threadMakeRunnable, (hs.current c).1, if_true]
  split
  · rfl
  next hr =>
  split
  · exact hs
  next hi =>
  split
  · exact hs
  obtain ⟨hm, hh⟩ := ready_iff.mp (by simpa using hr)
  refine hs.leave (hm.resolve_right hi) hh (.runqueue c) .ready ?_ rfl rfl rfl ?_ rfl ?_ ?_ ?_
  · exact frame_of_eq rfl rfl rfl rfl rfl (fun _ => .inl rfl)
  · intro d hd
    simp [State.enqueue, State.setRunqueue, State.setState, hd]
  · intro t ht
    exact setState_of_ne ht
  · rw [State.enqueue, holds_setRunqueue, holds_setState]
    rfl
  · refine ⟨?_, ?_⟩
    · intro d hd
      cases hd
      exact (hs.current c).1
    · intro v hv
      cases hv
      exact update_self ..

theorem wchanSleep_sound (hs : Sound s) (c : C) (w : W) : Ensures (· = .blocked) Sound (wchanSleep c w s) := by
  simp only [wchanSleep]
  split
  · rfl
  next hr =>
  obtain ⟨hm, hh, -⟩ := calls_iff.mp (by simpa using hr)
  refine hs.leave hm hh (.wchan w) .sleep ?_ rfl rfl rfl (fun _ _ => rfl) rfl (fun _ _ => rfl)
    (holds_setWchan w _) ?_
  · exact frame_of_eq rfl rfl rfl rfl rfl (fun _ => .inl rfl)
  · refine ⟨fun d hd => (nomatch hd), ?_⟩
    intro v hv
    cases hv
    exact update_self ..

theorem threadExit_sound (hs : Sound s) (c : C) : Ensures (· = .blocked) Sound (threadExit c s) := by
  simp only [threadExit]
  split
  · rfl
  next hr =>
  obtain ⟨hm, hh, hf⟩ := calls_iff.mp (by simpa using hr)
  refine hs.leave hm hh (.zombies c) .zombie ?_ rfl rfl rfl (fun _ _ => rfl) rfl (fun _ _ => rfl)
    (holds_setZombies c _) ?_
  · refine ⟨rfl, rfl, fun _ ht => ht, fun _ => .inl rfl, fun _ => .inl rfl, ?_⟩
    -- the thread that exits is not in thread_fork
    intro u hu hl hout _
    refine ⟨hl, fun d hd => ?_⟩
    change u ∈ update s.zombies c (s.zombies c ++ [s.curthread c]) d at hd
    by_cases hdc : d = c
    · subst hdc
      rw [update_self, List.mem_append, List.mem_singleton] at hd
      obtain hd | rfl := hd
      · exact hout d hd
      · exact absurd hf hu
    · rw [update_of_ne hdc] at hd
      exact hout d hd
  · refine ⟨fun d hd => (nomatch hd), ?_⟩
    intro v hv
    cases hv
    exact update_self ..

/-- A CPU goes on in `thread_switch` and no thread goes anywhere. -/
theorem Sound.enter_same (hs : Sound s) {c : C} {m : Mode} (hh : s.hand c = .none)
    (hchosen : m.chosen = (s.mode c).chosen)
    (hawake : m.awake (s.curthread c) = (s.mode c).awake (s.curthread c)) : Sound (s.enter c m) := by
  refine hs.stay ?_ (stays_of_hand rfl rfl) rfl rfl ?_ (hs.steady_of c ?_ ?_)
  · exact frame_of_eq rfl rfl rfl rfl rfl (fun _ => .inl rfl)
  · intro z
    rw [holds_enter_current hchosen, update_eq_self_iff.mpr hawake]
  · intro d hd
    simp [State.enter, hd]
  · simpa [State.enter, hh] using steady_none

theorem pick_sound (hs : Sound s) {c : C} (hm : s.mode c = .picking) (hh : s.hand c = .none) :
    Sound (pick c s) := by
  simp only [pick]
  split
  · exact hs.enter_same hh (by simp [hm, Mode.chosen]) (by simp [hm, Mode.awake])
  next t ts hq =>
  have hin : t ∈ holds s (.link (.runqueue c)) := by simp [holds, threadlist, hq]
  have hhome := hs.home _ t hin
  refine hs.move ?_ (stays_of_hand rfl rfl) rfl (.link (.runqueue c)) (.next c) (by simp) [t] ts [t]
    ?_ ?_ ?_ (fun _ _ => rfl) ?_ (hs.steady_of c ?_ ?_)
  · exact frame_of_eq rfl rfl rfl rfl rfl (fun _ => .inl rfl)
  · rw [holds_enter_next, holds_setRunqueue]
    · rfl
    · simp [State.setRunqueue, hm, Mode.awake]
  · simp [holds, threadlist, hq]
  · simp [holds, hm, Mode.chosen]
  · intro u hu
    rw [List.mem_singleton.mp hu]
    exact ⟨hhome.cpu, hhome.state⟩
  · intro d hd
    simp [State.enter, State.setRunqueue, hd]
  · simpa [State.enter, State.setRunqueue, hh] using steady_none

theorem arrive_sound (hs : Sound s) {c : C} {t : ℕ} (hm : s.mode c = .switching t) (hh : s.hand c = .none) :
    Sound ({ s with curthread := update s.curthread c t }.enter c .arriving) := by
  have hsame : holds { s with curthread := update s.curthread c t } = holds s := by
    ext1 z
    cases z with
    | current d => by_cases hd : d = c <;> simp [holds, hd, hm, Mode.awake]
    | _ => rfl
  have hin : t ∈ holds s (.next c) := by simp [holds, hm, Mode.chosen]
  refine hs.move ?_ (stays_of_hand rfl rfl) rfl (.next c) (.current c) (by simp) [t] [] [t]
    ?_ ?_ ?_ (fun _ _ => rfl) ?_ (hs.steady_of c ?_ ?_)
  · refine ⟨rfl, rfl, fun _ ht => ht, ?_, fun _ => .inl rfl, fun _ _ hl hout _ => ⟨hl, hout⟩⟩
    intro d
    by_cases hd : d = c
    · subst hd
      exact .inr (by simpa [State.enter] using hin)
    · exact .inl (by simp [State.enter, hd])
  · rw [holds_enter, hsame, update_comm (by simp)]
    simp [Mode.awake, Mode.chosen]
  · simp [holds, hm, Mode.chosen]
  · simp [holds, hm, Mode.awake]
  · intro u hu
    rw [List.mem_singleton.mp hu]
    exact ⟨(hs.home _ t hin).cpu, fun v hv => (nomatch hv)⟩
  · intro d hd
    simp [State.enter, hd]
  · simpa [State.enter, hh] using steady_none

/-- A thread that runs may be in any state. -/
theorem Sound.setState_current (hs : Sound s) {c : C} {v : ThreadState}
    (hcur : s.curthread c ∈ holds s (.current c)) : Sound (s.setState (s.curthread c) v) := by
  refine hs.frame ?_ ?_ ?_ hs.steady
  · exact frame_of_eq rfl rfl rfl rfl rfl (fun _ => .inl rfl)
  · rw [holds_setState]
    exact hs.exact
  · intro z t ht
    rw [holds_setState] at ht
    by_cases hz : z = .current c
    · subst hz
      exact ⟨(hs.home _ t ht).cpu, fun v hv => (nomatch hv)⟩
    · have hne : t ≠ s.curthread c := by
        rintro rfl
        exact hz (hs.exact.unique _ _ _ ht hcur)
      have hstays : Stays s (s.setState (s.curthread c) v) := stays_of_hand rfl rfl
      exact hstays z t ht (setState_of_ne hne) (hs.home z t ht)

/-- A thread leaves its place for good. -/
theorem Sound.destroy (hs : Sound s) {c : C} {t : ℕ} {l : List ℕ} (x : Place C W) (hf : Frame s s')
    (hborn : ∀ u, s'.forked u ≠ none → u ≠ t) (hhand : s'.hand = s.hand) (hlive : s'.live = s.live)
    (hstate : s'.tState = s.tState) (hx : holds s x = t :: l) (hholds : holds s' = update (holds s) x l)
    (hsteady : ∀ d, Steady (s'.mode d) (s'.hand d) (s'.runqueue d).length)
    (hcur : t ≠ s'.curthread c) (hrun : s'.tState t ≠ .run) :
    Ensures (· = .blocked) Sound (threadDestroy c t s') := by
  have hdead : ∀ u, update s'.live t false u = true ↔ s.live u = true ∧ u ≠ t := by
    intro u
    by_cases hu : u = t <;> simp [hlive, hu]
  have hsame : holds { s' with live := update s'.live t false } = update (holds s) x l :=
    (holds_congr (s := s') rfl rfl rfl rfl rfl rfl rfl).trans hholds
  rw [threadDestroy, if_neg hcur, if_neg hrun]
  refine hs.frame ⟨hf.tCpu, hf.next, fun u hu => ((hdead u).mp hu).1, hf.current, hf.forked, ?_⟩ ?_ ?_ hsteady
  · intro u hu hl hout hno
    exact ⟨(hdead u).mpr ⟨hl, hborn u hu⟩, (hf.parent u hu hl hout hno).2⟩
  · rw [hsame]
    apply hs.exact.erase x t
    · intro z hz
      rw [update_of_ne hz]
    · rw [update_self, hx]
    · exact hdead
  · intro z u hu
    have hold : u ∈ holds s z := by
      rw [hsame] at hu
      by_cases hz : z = x
      · subst hz
        rw [update_self] at hu
        simp [hx, hu]
      · rwa [update_of_ne hz] at hu
    have hstays : Stays s { s' with live := update s'.live t false } := stays_of_hand hhand hf.tCpu
    exact hstays z u hold (by rw [← hstate]) (hs.home z u hold)

theorem exorcise_sound (hs : Sound s) {c : C} (hm : s.mode c = .exorcising) (hh : s.hand c = .none) :
    Ensures (· = .blocked) Sound (exorcise c s) := by
  simp only [exorcise]
  split
  · exact hs.enter_same hh (by simp [hm, Mode.chosen]) (by simp [hm, Mode.awake])
  next z zs hq =>
  have hin : z ∈ holds s (.link (.zombies c)) := by simp [holds, threadlist, hq]
  have hcur : z ≠ s.curthread c := by
    rintro rfl
    have hrun : s.curthread c ∈ holds s (.current c) := by simp [holds, hm, Mode.awake]
    cases hs.exact.unique _ _ _ hin hrun
  have hzombie : s.tState z = .zombie := (hs.home _ z hin).state _ rfl
  have hzombies : ∀ u d, u ∈ update s.zombies c zs d → u ∈ s.zombies d := by
    intro u d hu
    by_cases hdc : d = c
    · subst hdc
      rw [update_self] at hu
      simp [hq, hu]
    · rwa [update_of_ne hdc] at hu
  rw [if_neg hcur, if_neg (by simp [hzombie])]
  refine hs.destroy (.link (.zombies c)) ?_ ?_ rfl rfl rfl (by simp [holds, threadlist, hq])
    (holds_setZombies c zs) hs.steady hcur ?_
  · refine ⟨rfl, rfl, fun _ ht => ht, fun _ => .inl rfl, fun _ => .inl rfl, ?_⟩
    intro u _ hl hout _
    exact ⟨hl, fun d hd => hout d (hzombies u d hd)⟩
  · rintro u hu rfl
    exact (hs.parent u hu).2.1 c (by simp [hq])
  · change s.tState z ≠ .run
    simp [hzombie]

theorem threadSwitch_sound (hs : Sound s) {c : C} (hh : s.hand c = .none) :
    Ensures (· = .blocked) Sound (threadSwitch c s) := by
  simp only [threadSwitch]
  split
  · rfl
  · next hm => exact pick_sound hs hm hh
  · next hm => exact hs.enter_same hh (by simp [hm, Mode.chosen]) (by simp [hm, Mode.awake])
  · next t hm => exact arrive_sound hs hm hh
  · next hm =>
    have hrun := hs.setState_current (c := c) (v := .run) (by simp [holds, hm, Mode.awake])
    refine hrun.enter_same hh ?_ ?_
    · change [] = (s.mode c).chosen
      simp [hm, Mode.chosen]
    · change [s.curthread c] = (s.mode c).awake (s.curthread c)
      simp [hm, Mode.awake]
  · next hm => exact exorcise_sound hs hm hh

end OS161.Scheduler
