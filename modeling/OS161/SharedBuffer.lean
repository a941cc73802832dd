import OS161.CvRuns
import OS161.Ring

/-!
# The shared buffer

Producers and consumers around a ring of characters, with one lock and a
condition variable for each kind. Each of them signals the other kind once.
-/

set_option autoImplicit false

namespace OS161.SharedBuffer

open Function OS161.Channels OS161.Synch OS161.Vfs

inductive Cv where
  | producer
  | consumer
  deriving DecidableEq

instance : Fintype Cv := ⟨{.producer, .consumer}, fun c => by cases c <;> decide⟩

/-- `inPos` and `outPos` are the fields `in` and `out`. `produced` and `consumed`
only record the characters in the order in which they have gone through. -/
structure Buffer where
  buffer : ℕ → UInt8
  size : ℕ
  count : ℕ
  inPos : ℕ
  outPos : ℕ
  produced : List UInt8
  consumed : List UInt8

def sharedBufferCreate (size : ℕ) : Buffer := ⟨fun _ => 0, size, 0, 0, 0, [], []⟩

inductive Op where
  | produce (input : UInt8)
  | consume
  deriving DecidableEq

/-- The heads of the two loops, and the `lock_release` at the end of both
functions. -/
inductive Pc where
  | idle
  | produce (input : UInt8)
  | consume
  | unlock
  deriving DecidableEq

def sharedBufferProduce (input : UInt8) (b : Buffer) : Except Stop (Call Cv × Pc × Buffer) :=
  if b.size = b.count then .ok (.wait .producer, .produce input, b)
  else if b.size ≤ b.inPos then .error .outOfBounds
  else .ok (.signal .consumer, .unlock, { b with
    buffer := update b.buffer b.inPos input
    inPos := (b.inPos+1) % b.size
    count := b.count+1
    produced := b.produced ++ [input] })

def sharedBufferConsume (b : Buffer) : Except Stop (Call Cv × Pc × Buffer) :=
  if b.count = 0 then .ok (.wait .consumer, .consume, b)
  else if b.size ≤ b.outPos then .error .outOfBounds
  else .ok (.signal .producer, .unlock, { b with
    outPos := (b.outPos+1) % b.size
    count := b.count-1
    consumed := b.consumed ++ [b.buffer b.outPos] })

variable {T : Type}

def move : Client T Cv Pc Buffer Op
  | .produce input, _, .idle, b => .ok (.acquire, .produce input, b)
  | .consume, _, .idle, b => .ok (.acquire, .consume, b)
  | _, _, .produce input, b => sharedBufferProduce input b
  | _, _, .consume, b => sharedBufferConsume b
  | _, _, .unlock, b => .ok (.release, .idle, b)

abbrev Threads (T : Type) := Kernel T Cv Pc Buffer

/-! The buffer itself. -/

structure Filled (n : ℕ) (b : Buffer) : Prop where
  size : b.size = n
  count : b.count ≤ n
  inPos : b.inPos = (b.outPos + b.count) % n
  outPos : b.outPos < n
  order : b.produced = b.consumed ++ Ring.contents b.buffer n b.outPos b.count

variable {n : ℕ} {b b' : Buffer} {call : Call Cv} {q : Pc} {input : UInt8}

theorem create_filled (hn : 0 < n) : Filled n (sharedBufferCreate n) := by
  refine ⟨rfl, Nat.zero_le _, ?_, hn, rfl⟩
  simp [sharedBufferCreate]

/-- The characters that have been taken out are the first ones put in. -/
theorem Filled.firstOut (h : Filled n b) : b.consumed <+: b.produced := ⟨_, h.order.symm⟩

theorem Filled.inPos_lt (h : Filled n b) : b.inPos < n := by
  rw [h.inPos]
  exact Nat.mod_lt _ (by have := h.outPos; omega)

/-- What a call finds at the head of its loop. -/
theorem produce_cases (h : Filled n b) (hp : sharedBufferProduce input b = .ok (call, q, b')) :
    call = .wait .producer ∧ q = .produce input ∧ b' = b ∧ b.count = n ∨
    call = .signal .consumer ∧ q = .unlock ∧ b.count < n ∧ b'.count = b.count+1 ∧ Filled n b' := by
  simp only [sharedBufferProduce] at hp
  split at hp
  · next hfull =>
    cases hp
    exact .inl ⟨rfl, rfl, rfl, by rw [← hfull, h.size]⟩
  · next hfull =>
    split at hp
    · cases hp
    · cases hp
      have hlt : b.count < n := by
        have := h.count
        rw [h.size] at hfull
        omega
      refine .inr ⟨rfl, rfl, hlt, rfl, h.size, hlt, ?_, h.outPos, ?_⟩
      · show (b.inPos+1) % b.size = (b.outPos+(b.count+1)) % n
        rw [h.size, h.inPos, Nat.mod_add_mod, Nat.add_assoc]
      · show b.produced ++ [input] = b.consumed ++ Ring.contents (update b.buffer b.inPos input) n b.outPos (b.count+1)
        rw [h.inPos, Ring.contents_push hlt, h.order, List.append_assoc]

theorem consume_cases (h : Filled n b) (hp : sharedBufferConsume b = .ok (call, q, b')) :
    call = .wait .consumer ∧ q = .consume ∧ b' = b ∧ b.count = 0 ∨
    call = .signal .producer ∧ q = .unlock ∧ b'.count+1 = b.count ∧ Filled n b' := by
  simp only [sharedBufferConsume] at hp
  split at hp
  · next hempty =>
    cases hp
    exact .inl ⟨rfl, rfl, rfl, hempty⟩
  · next hempty =>
    split at hp
    · cases hp
    · cases hp
      obtain ⟨m, hm⟩ := Nat.exists_eq_succ_of_ne_zero hempty
      have hcount := h.count
      have hord := h.order
      rw [hm, Ring.contents_pop h.outPos] at hord
      refine .inr ⟨rfl, rfl, by simp [hm], h.size, by simp [hm]; omega, ?_, ?_, ?_⟩
      · show b.inPos = ((b.outPos+1) % b.size + (b.count-1)) % n
        rw [h.inPos, h.size, hm, Nat.mod_add_mod]
        congr 1
        omega
      · show (b.outPos+1) % b.size < n
        rw [h.size]
        exact Nat.mod_lt _ (by have := h.outPos; omega)
      · show b.produced = (b.consumed ++ [b.buffer b.outPos]) ++ Ring.contents b.buffer n ((b.outPos+1) % b.size) (b.count-1)
        rw [hord, h.size, hm, List.append_assoc]
        rfl

/-! Where the threads can be. -/

/-- The condition variable a loop waits on. -/
def loopOf (c : Cv) : Pc → Bool
  | .idle | .unlock => false
  | .produce _ => decide (c = .producer)
  | .consume => decide (c = .consumer)

/-- The positions between `lock_acquire` and `lock_release`. -/
def busy : Pc → Bool
  | .idle => false
  | _ => true

/-- The calls the two functions make, and from where. -/
def fits : Point Cv Pc → Bool
  | .client inside p => inside == busy p
  | .acquire _ none p => loopOf .producer p || loopOf .consumer p
  | .acquire _ (some c) p | .release _ (some c) p | .wait _ c p => loopOf c p
  | .release _ none p => decide (p = .idle)
  | .wake _ all _ p => !all && decide (p = .unlock)

/-- Waiting, or about to. -/
def starving (c : Cv) : Point Cv Pc → Bool
  | .release _ w _ => decide (w = some c)
  | .wait .spin d _ | .wait .sleep d _ | .wait .asleep d _ => decide (d = c)
  | _ => false

/-- A thread that has been signalled and has not got the lock yet. -/
def onTheWay (c : Cv) : Point Cv Pc → ℕ
  | .wait .woken d _ | .wait .unspin d _ => if d = c then 1 else 0
  | .acquire .done _ _ => 0
  | .acquire _ w _ => if w = some c then 1 else 0
  | _ => 0

/-- A thread that has the lock and is about to look at the count, or has not
signalled yet what it has added to it. -/
def inHand (c : Cv) : Point Cv Pc → ℕ
  | .client _ p => if loopOf c p then 1 else 0
  | .acquire .done w _ => if w = some c then 1 else 0
  | .wake .spin _ d _ | .wake .wake _ d _ => if d = c then 1 else 0
  | _ => 0

def due (c : Cv) (x : Point Cv Pc) : ℕ := onTheWay c x + inHand c x

/-- What the threads on a condition variable wait for. -/
def supply (b : Buffer) : Cv → ℕ
  | .producer => b.size - b.count
  | .consumer => b.count

theorem busy_of_loopOf {c : Cv} {p : Pc} (hc : loopOf c p = true) : busy p = true := by
  cases p <;> simp_all [loopOf, busy]

theorem fits_woken {x : Point Cv Pc} (hx : fits x = true) : fits (woken x) = true := by
  cases x with
  | acquire a w p => cases a <;> cases w <;> exact hx
  | wait w c p => cases w <;> exact hx
  | _ => exact hx

theorem silent_fits {x y : Point Cv Pc} (h : Silent x y) (hx : fits x = true) : fits y = true := by
  cases h with
  | acquireDone w p =>
    cases w with
    | none =>
      simp only [fits, Bool.or_eq_true] at hx
      rcases hx with hx | hx <;> simp [fits, busy_of_loopOf hx]
    | some c => simp [fits, busy_of_loopOf (show loopOf c p = true from hx)]
  | wakeDone all c p =>
    simp only [fits, Bool.and_eq_true, decide_eq_true_eq] at hx
    simp [fits, hx.2, busy]
  | releaseDone p =>
    simp only [fits, decide_eq_true_eq] at hx
    simp [fits, hx, busy]
  | acquireCheck w p => cases w <;> exact hx
  | acquireSpin w p => cases w <;> exact hx
  | acquireWoken w p => cases w <;> exact hx
  | releaseCheck w p => cases w <;> exact hx
  | releaseSpin w p => cases w <;> exact hx
  | _ => exact hx

theorem silent_due {x y : Point Cv Pc} (h : Silent x y) (hx : fits x = true) (c : Cv) : due c x ≤ due c y := by
  cases h with
  | acquireDone w p =>
    cases w with
    | none => simp [due, onTheWay, inHand]
    | some d =>
      by_cases hd : d = c
      · subst hd
        simp [due, onTheWay, inHand, show loopOf d p = true from hx]
      · simp [due, onTheWay, inHand, hd]
  | _ => simp [due, onTheWay, inHand]

theorem silent_starving {x y : Point Cv Pc} (h : Silent x y) (c : Cv) (hy : starving c y = true) :
    starving c x = true := by
  cases h <;> simp_all [starving]

/-- What a step between two calls leaves to be served. A thread that decides to
wait has found nothing. -/
theorem client_due [DecidableEq T] {op : Op} {t : T} {inside : Bool} {p : Pc} {m : Mem T Buffer} {y : Point Cv Pc}
    (h : Filled n b) (hm : move op t p b = .ok (call, q, b')) (he : enter t m inside q call = .ok y)
    (hp : fits (.client inside p) = true) :
    Filled n b' ∧ fits y = true ∧ ∀ c, supply b' c = 0 ∨
      starving c y = false ∧ supply b' c + due c (.client inside p) ≤ supply b c + due c y := by
  cases p with
  | idle =>
    cases op <;> cases hm <;> simp only [enter] at he <;> split at he <;> cases he <;>
      exact ⟨h, rfl, fun c => .inr ⟨rfl, by simp [due, onTheWay, inHand, loopOf]⟩⟩
  | produce input =>
    have hm : sharedBufferProduce input b = .ok (call, q, b') := by cases op <;> exact hm
    rcases produce_cases h hm with ⟨rfl, rfl, rfl, hfull⟩ | ⟨rfl, rfl, hlt, hcount, hf⟩ <;>
      simp only [enter] at he <;> split at he <;> cases he
    · refine ⟨h, rfl, ?_⟩
      intro c
      cases c with
      | producer => exact .inl (by simp [supply, h.size, hfull])
      | consumer => exact .inr ⟨rfl, by simp [due, onTheWay, inHand, loopOf]⟩
    · refine ⟨hf, rfl, ?_⟩
      intro c
      refine .inr ⟨rfl, ?_⟩
      cases c with
      | producer =>
        simp [supply, due, onTheWay, inHand, loopOf, hcount, h.size, hf.size]
        omega
      | consumer => simp [supply, due, onTheWay, inHand, loopOf, hcount]
  | consume =>
    have hm : sharedBufferConsume b = .ok (call, q, b') := by cases op <;> exact hm
    rcases consume_cases h hm with ⟨rfl, rfl, rfl, hempty⟩ | ⟨rfl, rfl, hcount, hf⟩ <;>
      simp only [enter] at he <;> split at he <;> cases he
    · refine ⟨h, rfl, ?_⟩
      intro c
      cases c with
      | producer => exact .inr ⟨rfl, by simp [due, onTheWay, inHand, loopOf]⟩
      | consumer => exact .inl hempty
    · refine ⟨hf, rfl, ?_⟩
      intro c
      refine .inr ⟨rfl, ?_⟩
      cases c with
      | producer =>
        simp [supply, due, onTheWay, inHand, loopOf, h.size, hf.size]
        omega
      | consumer =>
        simp [supply, due, onTheWay, inHand, loopOf]
        omega
  | unlock =>
    cases op <;> cases hm <;> simp only [enter] at he <;> split at he <;> cases he <;>
      exact ⟨h, rfl, fun c => .inr ⟨rfl, by simp [due, onTheWay, inHand, loopOf]⟩⟩

variable [Fintype T]

/-- If somebody waits, or is about to, nothing is left that nobody has been
signalled for. -/
structure Fed (n : ℕ) (b : Buffer) (place : T → Point Cv Pc) : Prop where
  filled : Filled n b
  fits : ∀ t, fits (place t) = true
  fed : ∀ c t, starving c (place t) = true → supply b c ≤ tally (due c) place

variable [DecidableEq T] {place : T → Point Cv Pc} {t : T} {op : Op}

/-- One thread goes on. -/
theorem Fed.goto (h : Fed n b place) (hf : Filled n b') {x : Point Cv Pc} (hx : SharedBuffer.fits x = true)
    (hd : ∀ c, supply b' c = 0 ∨ starving c x = false ∧ (∀ u, starving c (place u) = false) ∨
      (starving c x = true → starving c (place t) = true) ∧
        supply b' c + due c (place t) ≤ supply b c + due c x) :
    Fed n b' (update place t x) := by
  refine ⟨hf, ?_, ?_⟩
  · intro u
    by_cases hu : u = t
    · subst hu
      rwa [update_self]
    · rw [update_of_ne hu]
      exact h.fits u
  · intro c u hu
    have hold : starving c x = true ∧ u = t ∨ starving c (place u) = true := by
      by_cases hut : u = t
      · subst hut
        exact .inl ⟨by rwa [update_self] at hu, rfl⟩
      · exact .inr (by rwa [update_of_ne hut] at hu)
    rcases hd c with h0 | ⟨hx, hnone⟩ | ⟨hst, hle⟩
    · omega
    · simp [hx, hnone u] at hold
    · have hfed : supply b c ≤ tally (due c) place := by
        rcases hold with ⟨hold, -⟩ | hold
        · exact h.fed c t (hst hold)
        · exact h.fed c u hold
      have hsum := tally_update (due c) place t x
      omega

/-- One thread goes on and leaves the buffer as it is. -/
theorem Fed.pass (h : Fed n b place) {x : Point Cv Pc} (hx : SharedBuffer.fits x = true)
    (hd : ∀ c, due c (place t) ≤ due c x)
    (hst : ∀ c, starving c x = true → starving c (place t) = true) : Fed n b (update place t x) :=
  h.goto h.filled hx (fun c => .inr (.inr ⟨hst c, Nat.add_le_add_left (hd c) _⟩))

/-- A signalled thread comes off the channel, and the signal has been given. -/
theorem Fed.signal (h : Fed n b place) {c : Cv} {p q : Pc} {u : T} (hp : place t = .wake .wake false c p)
    (hu : place u = .wait .asleep c q) :
    Fed n b (update (update place u (.wait .woken c q)) t (.wake .done false c p)) := by
  have hut : t ≠ u := by
    rintro rfl
    simp [hp] at hu
  have hw : Fed n b (update place u (.wait .woken c q)) := by
    refine h.pass ?_ ?_ ?_
    · have := h.fits u
      rwa [hu] at this
    · simp [hu, due, onTheWay, inHand]
    · simp [starving]
  refine ⟨h.filled, ?_, ?_⟩
  · intro v
    by_cases hv : v = t
    · subst hv
      have := h.fits v
      rw [hp] at this
      rwa [update_self]
    · rw [update_of_ne hv]
      exact hw.fits v
  · intro d v hv
    have hold : starving d (place v) = true := by
      by_cases hvt : v = t
      · simp [hvt, starving] at hv
      · by_cases hvu : v = u
        · subst hvu
          rw [update_of_ne hvt, update_self] at hv
          simp [starving] at hv
        · simpa [update_of_ne hvt, update_of_ne hvu] using hv
    have hfed := h.fed d v hold
    have hone := tally_update (due d) place u (.wait .woken c q)
    have htwo := tally_update (due d) (update place u (.wait .woken c q)) t (.wake .done false c p)
    rw [update_of_ne hut, hp] at htwo
    rw [hu] at hone
    have h1 : due d (.wait .woken c q) = due d (.wake .wake false c p) := by simp [due, onTheWay, inHand]
    have h2 : due d (.wait .asleep c q) = 0 := rfl
    have h3 : due d (.wake .done false c p) = 0 := rfl
    omega

structure Served (n : ℕ) (s : Threads T) : Prop where
  locked : Locked s
  fed : Fed n s.mem.shared s.place

variable {s s' : Threads T}

omit [DecidableEq T] in
/-- A signal that finds nobody: nobody is waiting, and nobody is about to. -/
theorem Served.nobody (h : Served n s) {all : Bool} {c : Cv} {p : Pc} (hp : s.place t = .wake .wake all c p)
    (hq : s.chan (some c) = []) (u : T) : starving c (s.place u) = false := by
  by_contra hu
  have hst : starving c (s.place u) = true := by simpa using hu
  by_cases hw : waiting c (s.place u) = true
  · have hmem := h.locked.queued t all c p hp u hw
    simp [hq] at hmem
  · -- it has not released the lock yet
    have hh : holds (s.place u) = true := by
      cases hpu : s.place u with
      | release r w q => cases r <;> simp_all [starving, waiting, holds]
      | wait w d q => cases w <;> simp_all [starving, waiting, holds]
      | _ => simp_all [starving]
    have hut : u = t := Option.some.inj (((h.locked.holder u).mpr hh).symm.trans
      ((h.locked.holder t).mpr (by simp [hp, holds])))
    subst hut
    simp [hp, starving] at hst

theorem event_fed (h : Served n s) (he : Event move t op s s') : Fed n s'.mem.shared s'.place := by
  have hfit := h.fed.fits t
  cases he with
  | client hp hm he =>
    obtain ⟨hf, hy, hdue⟩ := client_due h.fed.filled hm he (hp ▸ hfit)
    refine h.fed.goto hf hy ?_
    intro c
    rcases hdue c with h0 | ⟨hns, hle⟩
    · exact .inl h0
    · exact .inr (.inr ⟨by simp [hns], hp ▸ hle⟩)
  | silent hp =>
    exact h.fed.pass (silent_fits hp hfit) (silent_due hp hfit) (silent_starving hp)
  | @take again w p hp ha =>
    rw [hp] at hfit
    refine h.fed.pass ?_ ?_ ?_
    · cases w <;> exact hfit
    · simp [hp, due, onTheWay, inHand]
    · simp [starving]
  | @refuse again w p hp ha =>
    rw [hp] at hfit
    refine h.fed.pass ?_ ?_ ?_
    · cases w <;> exact hfit
    · simp [hp, due, onTheWay, inHand]
    · simp [starving]
  | @clear w p hp =>
    rw [hp] at hfit
    refine h.fed.pass ?_ ?_ ?_
    · cases w <;> exact hfit
    · simp [hp, due, onTheWay, inHand]
    · simp [hp, starving]
  | sleep hp =>
    rcases hp with ⟨w, p, hp, rfl, rfl⟩ | ⟨c, p, hp, rfl, rfl⟩
    · rw [hp] at hfit
      refine h.fed.pass ?_ ?_ ?_
      · cases w <;> exact hfit
      · simp [hp, due, onTheWay, inHand]
      · simp [starving]
    · rw [hp] at hfit
      exact h.fed.pass hfit (by simp [hp, due, onTheWay, inHand]) (by simp [hp, starving])
  | wakeNone hp hk hq =>
    rcases hp with ⟨w, p, hp, rfl, rfl⟩ | ⟨c, p, hp, rfl, rfl⟩
    · rw [hp] at hfit
      refine h.fed.pass ?_ ?_ ?_
      · cases w <;> exact hfit
      · simp [hp, due, onTheWay, inHand]
      · simp [hp, starving]
    · rw [hp] at hfit
      refine h.fed.goto h.fed.filled hfit ?_
      intro d
      by_cases hdc : c = d
      · subst hdc
        exact .inr (.inl ⟨rfl, h.nobody hp hq⟩)
      · exact .inr (.inr ⟨by simp [starving], by simp [hp, due, onTheWay, inHand, hdc]⟩)
  | @wakeOne k x u us hp hk hq =>
    rcases hp with ⟨w, p, hp, rfl, rfl⟩ | ⟨c, p, hp, rfl, rfl⟩
    · obtain ⟨w', q, hu⟩ := h.locked.on_lock (u := u) (by simp [hq])
      have hut : t ≠ u := by
        rintro rfl
        simp [hp] at hu
      have hw : Fed n s.mem.shared (update s.place u (woken (s.place u))) := by
        refine h.fed.pass (fits_woken (h.fed.fits u)) ?_ ?_
        · simp [hu, woken, due, onTheWay, inHand]
        · simp [hu, woken, starving]
      refine hw.pass ?_ ?_ ?_
      · rw [hp] at hfit
        cases w <;> exact hfit
      · simp [update_of_ne hut, hp, due, onTheWay, inHand]
      · simp [update_of_ne hut, hp, starving]
    · obtain ⟨q, hu⟩ := h.locked.on_cv (u := u) (c := c) (by simp [hq])
      have hf := h.fed.signal hp hu
      show Fed n s.mem.shared (update (update s.place u (woken (s.place u))) t (.wake .done false c p))
      rwa [hu, woken]
  | wakeAll hp hk =>
    rw [hp] at hfit
    simp [fits] at hfit

theorem step_served {a : T × Op} (h : Served n s) (hs : step move a s = .ok s') : Served n s' :=
  ⟨step_locked h.locked hs, event_fed h (effect_event (step_effect hs))⟩

omit [DecidableEq T] in
theorem create_served (hn : 0 < n) :
    Served n (create (fun _ => .idle) (sharedBufferCreate n) : Threads T) := by
  refine ⟨create_locked _ _, create_filled hn, fun _ => rfl, ?_⟩
  intro c t ht
  simp [create, starving] at ht

theorem run_served (hn : 0 < n) {as : List (T × Op)}
    (hr : run move as (create (fun _ => .idle) (sharedBufferCreate n)) = .ok s) : Served n s :=
  Runs.run_invariant (fun _ _ _ h hs => step_served h hs) (create_served hn) hr

omit [DecidableEq T] in
theorem tally_due (c : Cv) (f : T → Point Cv Pc) :
    tally (due c) f = tally (onTheWay c) f + tally (inHand c) f := Finset.sum_add_distrib

/-- What is in hand is in the hands of the holder. -/
theorem holds_of_inHand {c : Cv} {x : Point Cv Pc} (hx : fits x = true) (hi : inHand c x ≠ 0) :
    holds x = true := by
  cases x with
  | client inside p =>
    have hl : loopOf c p = true := by
      by_contra hno
      simp [inHand, hno] at hi
    simp only [fits, beq_iff_eq] at hx
    rw [holds, hx, busy_of_loopOf hl]
  | acquire a w p => cases a <;> simp_all [inHand, holds]
  | wake w all d p => rfl
  | _ => simp [inHand] at hi

omit [DecidableEq T] in
theorem Served.inHand_free (h : Served n s) (c : Cv) (hfree : s.mem.available = true) :
    tally (inHand c) s.place = 0 := by
  apply Finset.sum_eq_zero
  intro t _
  by_contra hne
  have hh := (h.locked.holder t).mpr (holds_of_inHand (h.fed.fits t) hne)
  rw [h.locked.available.mp hfree] at hh
  cases hh

omit [DecidableEq T] in
theorem Served.inHand_le (h : Served n s) (c : Cv) : tally (inHand c) s.place ≤ 1 := by
  cases hh : s.mem.holder with
  | none => rw [h.inHand_free c (h.locked.available.mpr hh)]; omega
  | some t =>
    have hone : tally (inHand c) s.place = inHand c (s.place t) := by
      apply Finset.sum_eq_single t
      · intro u _ hut
        by_contra hne
        have hu := (h.locked.holder u).mpr (holds_of_inHand (h.fed.fits u) hne)
        rw [hh] at hu
        exact hut (Option.some.inj hu).symm
      · intro hno
        exact absurd (Finset.mem_univ t) hno
    rw [hone]
    cases s.place t with
    | client inside p => simp only [inHand]; split <;> omega
    | acquire a w p => cases a <;> simp only [inHand] <;> (try split) <;> omega
    | wake w all d p => cases w <;> simp only [inHand] <;> (try split) <;> omega
    | _ => simp [inHand]

omit [Fintype T] in
/-- The calls are made as they may be made. -/
theorem proceed_safe {inside : Bool} {p : Pc} {m : Mem T Buffer} {e : Stop} (hf : Filled n m.shared)
    (hp : fits (.client inside p) = true) (hin : m.holder = some t ↔ inside = true) :
    proceed move inside p op t m ≠ .error e := by
  have hi : inside = busy p := by simpa [fits] using hp
  cases p with
  | idle => cases op <;> simp_all [proceed, move, enter, busy]
  | produce input =>
    have hm : move op t (.produce input) m.shared = sharedBufferProduce input m.shared := by cases op <;> rfl
    have hh : m.holder = some t := hin.mpr (by simp [hi, busy])
    have hlt : ¬m.shared.size ≤ m.shared.inPos := by
      rw [hf.size]
      exact not_le.mpr hf.inPos_lt
    by_cases hfull : m.shared.size = m.shared.count
    · simp [proceed, hm, sharedBufferProduce, hfull, enter, hh]
    · simp [proceed, hm, sharedBufferProduce, hfull, hlt, enter, hh]
  | consume =>
    have hm : move op t .consume m.shared = sharedBufferConsume m.shared := by cases op <;> rfl
    have hh : m.holder = some t := hin.mpr (by simp [hi, busy])
    have hlt : ¬m.shared.size ≤ m.shared.outPos := by
      rw [hf.size]
      exact not_le.mpr hf.outPos
    by_cases hempty : m.shared.count = 0
    · simp [proceed, hm, sharedBufferConsume, hempty, enter, hh]
    · simp [proceed, hm, sharedBufferConsume, hempty, hlt, enter, hh]
  | unlock => cases op <;> simp_all [proceed, move, enter, busy]

/-- A thread can only be kept from going on by a spinlock, or by being asleep. -/
theorem run_stops (hn : 0 < n) {as : List (T × Op)} {a : T × Op} {e : Stop}
    (hr : run move as (create (fun _ => .idle) (sharedBufferCreate n)) = .ok s)
    (hs : step move a s = .error e) : e = .blocked := by
  by_contra he
  have h := run_served hn hr
  obtain ⟨inside, p, hp, hstop⟩ := stops_client h.locked hs he
  exact proceed_safe h.fed.filled (hp ▸ h.fed.fits a.1) (by rw [h.locked.holder, hp, holds]) hstop

/-- Characters come out in the order in which they went in, the ring is
consistent, and if a thread sleeps on one of the condition variables while the
lock is free, at least as many as could go on have been signalled and are on
their way. While the lock is held, its holder may be one more of them, or may
still have to signal. -/
theorem run_buffers (hn : 0 < n) (as : List (T × Op)) (s : Threads T)
    (hr : run move as (create (fun _ => .idle) (sharedBufferCreate n)) = .ok s) :
    s.mem.shared.consumed <+: s.mem.shared.produced ∧
    s.mem.shared.count ≤ n ∧ s.mem.shared.inPos = (s.mem.shared.outPos + s.mem.shared.count) % n ∧
    (s.mem.available = true → s.chan (some .consumer) ≠ [] →
      s.mem.shared.count ≤ tally (onTheWay .consumer) s.place) ∧
    (s.mem.available = true → s.chan (some .producer) ≠ [] →
      n - s.mem.shared.count ≤ tally (onTheWay .producer) s.place) ∧
    ∀ c, tally (inHand c) s.place ≤ 1 ∧ (s.chan (some c) ≠ [] →
      supply s.mem.shared c ≤ tally (onTheWay c) s.place + tally (inHand c) s.place) := by
  have h := run_served hn hr
  have hall : ∀ c, s.chan (some c) ≠ [] →
      supply s.mem.shared c ≤ tally (onTheWay c) s.place + tally (inHand c) s.place := by
    intro c hne
    obtain ⟨t, ht⟩ := List.exists_mem_of_ne_nil _ hne
    obtain ⟨q, hq⟩ := h.locked.on_cv ht
    rw [← tally_due]
    exact h.fed.fed c t (by simp [hq, starving])
  have hfree : ∀ c, s.mem.available = true → s.chan (some c) ≠ [] →
      supply s.mem.shared c ≤ tally (onTheWay c) s.place := by
    intro c hav hne
    have hle := hall c hne
    rwa [h.inHand_free c hav, Nat.add_zero] at hle
  refine ⟨h.fed.filled.firstOut, h.fed.filled.count, h.fed.filled.inPos, hfree .consumer, ?_,
    fun c => ⟨h.inHand_le c, hall c⟩⟩
  intro hav hne
  have hle := hfree .producer hav hne
  rwa [supply, h.fed.filled.size] at hle

/-- Two consumers wait, a producer puts one character in. -/
def oneForTwo : List (Fin 3 × Op) :=
  List.replicate 12 (0, .consume) ++ List.replicate 12 (1, .consume) ++ List.replicate 13 (2, .produce 97)

theorem oneForTwo_buffers :
    ∃ s, run move oneForTwo (create (fun _ => .idle) (sharedBufferCreate 1)) = .ok s ∧
      s.mem.available = true ∧ s.chan (some .consumer) = [1] ∧ s.mem.shared.count = 1 ∧
      s.mem.shared.count ≤ tally (onTheWay .consumer) s.place := by
  obtain ⟨s, hr, hav, hchan, hcount⟩ :
      ∃ s, run move oneForTwo (create (fun _ => .idle) (sharedBufferCreate 1)) = .ok s ∧
        s.mem.available = true ∧ s.chan (some .consumer) = [1] ∧ s.mem.shared.count = 1 := by decide +kernel
  exact ⟨s, hr, hav, hchan, hcount,
    (run_buffers (by decide) oneForTwo s hr).2.2.2.1 hav (by simp [hchan])⟩

end OS161.SharedBuffer
