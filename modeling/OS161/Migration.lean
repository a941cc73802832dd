import OS161.Channels
import OS161.Scheduler

/-!
# Moving threads to other CPUs

`thread_consider_migration`, section by section, on one of any number of CPUs.
It counts the run queues under their locks, one after the other, and uses the
counts under other locks later; in between the other CPUs add threads to any
queue and take threads from their own. Interrupts are off, so this CPU does
nothing else.
-/

set_option autoImplicit false

namespace OS161.Migration

open Function OS161.Channels OS161.Vfs

/-- `threadlist_remtail`; a null pointer if the list is empty. -/
def threadlistRemtail (tl : List ℕ) : Option (ℕ × List ℕ) := tl.getLast?.map (·, tl.dropLast)

def threadlistRemhead : List ℕ → Option (ℕ × List ℕ)
  | [] => none
  | t::ts => some (t, ts)

def threadlistAddhead (tl : List ℕ) (t : ℕ) : List ℕ := t :: tl

def threadlistAddtail (tl : List ℕ) (t : ℕ) : List ℕ := tl ++ [t]

/-- Unsigned subtraction; a wrap around counts as an error. -/
def minus (a b : ℕ) : Except Stop ℕ := if b ≤ a then .ok (a-b) else .error .outOfBounds

/-- Between which sections the function is, with its local variables. -/
inductive Point (n : ℕ) where
  | counting (rest : List (Fin n)) (totalCount myCount : ℕ)
  | taking (toSend oneShare : ℕ)
  | sending (rest : List (Fin n)) (toSend oneShare : ℕ) (victims : List ℕ)
  | returning (victims : List ℕ)
  | returned (victims : List ℕ)
  deriving DecidableEq

structure State (n : ℕ) where
  runqueue : Fin n → List ℕ
  tCpu : ℕ → Option (Fin n)
  point : Point n

variable {n : ℕ}

def start (runqueue : Fin n → List ℕ) (tCpu : ℕ → Option (Fin n)) : State n :=
  ⟨runqueue, tCpu, .counting (List.finRange n) 0 0⟩

/-- `DIVROUNDUP`. -/
def divRoundup (a b : ℕ) : ℕ := (a+b-1) / b

/-- The loop that takes `i` threads from the tail of the own run queue. -/
def takeVictims : (i : ℕ) → (runqueue victims : List ℕ) → Except Stop (List ℕ × List ℕ)
  | 0, runqueue, victims => .ok (runqueue, victims)
  | i+1, runqueue, victims =>
    match threadlistRemtail runqueue with
    | none => .error .panic
    | some (t, runqueue') => takeVictims i runqueue' (threadlistAddhead victims t)

/-- What the loop on another CPU's queue changes. -/
structure Filled (n : ℕ) where
  toSend : ℕ
  victims : List ℕ
  runqueue : List ℕ
  tCpu : ℕ → Option (Fin n)

/-- The loop on the run queue of `c`. The current thread is passed over. -/
def fill (curthread oneShare : ℕ) (c : Fin n) : (toSend : ℕ) → (victims runqueue : List ℕ) →
    (tCpu : ℕ → Option (Fin n)) → Except Stop (Filled n)
  | 0, victims, runqueue, tCpu => .ok ⟨0, victims, runqueue, tCpu⟩
  | toSend+1, victims, runqueue, tCpu =>
    if runqueue.length < oneShare then
      match threadlistRemhead victims with
      | none => .error .panic
      | some (t, victims') =>
        if t = curthread then fill curthread oneShare c toSend (threadlistAddtail victims' t) runqueue tCpu
        else fill curthread oneShare c toSend victims' (threadlistAddtail runqueue t) (update tCpu t (some c))
    else .ok ⟨toSend+1, victims, runqueue, tCpu⟩

/-- The last loop; it ends when `threadlist_remhead` returns a null pointer. -/
def giveBack : (victims runqueue : List ℕ) → List ℕ × List ℕ
  | [], runqueue => ([], runqueue)
  | t::victims, runqueue => giveBack victims (threadlistAddtail runqueue t)

/-- `KASSERT(threadlist_isempty(&victims))`. -/
def finish (victims : List ℕ) (s : State n) : Except Stop (State n) :=
  if victims.isEmpty then .ok { s with point := .returned victims } else .error .panic

/-- The next section of `thread_consider_migration` on CPU `cSelf`. -/
def migrate (cSelf : Fin n) (curthread : ℕ) (s : State n) : Except Stop (State n) :=
  match s.point with
  | .counting (c::rest) totalCount myCount =>
    let count := (s.runqueue c).length
    .ok { s with point := .counting rest (totalCount+count) (if c = cSelf then count else myCount) }
  | .counting [] totalCount myCount =>
    let oneShare := divRoundup totalCount n
    if myCount < oneShare then .ok { s with point := .returned [] }
    else match minus myCount oneShare with
      | .error e => .error e
      | .ok toSend => .ok { s with point := .taking toSend oneShare }
  | .taking toSend oneShare =>
    match takeVictims toSend (s.runqueue cSelf) [] with
    | .error e => .error e
    | .ok (runqueue, victims) => .ok { s with
        runqueue := update s.runqueue cSelf runqueue
        point := .sending (List.finRange n) toSend oneShare victims }
  | .sending [] _ _ victims => .ok { s with point := .returning victims }
  | .sending (c::rest) toSend oneShare victims =>
    if toSend = 0 then .ok { s with point := .returning victims }
    else if c = cSelf then .ok { s with point := .sending rest toSend oneShare victims }
    else match fill curthread oneShare c toSend victims (s.runqueue c) s.tCpu with
      | .error e => .error e
      | .ok f => .ok { s with
          runqueue := update s.runqueue c f.runqueue
          tCpu := f.tCpu
          point := .sending rest f.toSend oneShare f.victims }
  | .returning victims =>
    if victims.isEmpty then finish victims s
    else
      let (victims', runqueue) := giveBack victims (s.runqueue cSelf)
      finish victims' { s with runqueue := update s.runqueue cSelf runqueue }
  | .returned _ => .error .blocked

/-- The other CPUs add a thread to a queue, at any place in it, or remove one from
a queue, and may set the CPU of a thread. -/
inductive Act (n : ℕ) where
  | resume
  | add (c : Fin n) (i t : ℕ)
  | remove (c : Fin n) (t : ℕ)
  | setCpu (t : ℕ) (c : Fin n)
  deriving DecidableEq

def step (cSelf : Fin n) (curthread : ℕ) : Act n → State n → Except Stop (State n)
  | .resume, s => migrate cSelf curthread s
  | .add c i t, s => .ok { s with
      runqueue := update s.runqueue c ((s.runqueue c).take i ++ t :: (s.runqueue c).drop i) }
  | .remove c t, s => .ok { s with runqueue := update s.runqueue c ((s.runqueue c).erase t) }
  | .setCpu t c, s => .ok { s with tCpu := update s.tCpu t (some c) }

/-- Nobody else takes threads from this CPU's queue. -/
def Allowed (cSelf : Fin n) : Act n → State n → Prop
  | .remove c t, s => c ≠ cSelf ∧ t ∈ s.runqueue c
  | _, _ => True

def Act.added : Act n → Option ℕ
  | .add _ _ t => some t
  | _ => none

def Act.removed : Act n → Option ℕ
  | .remove _ t => some t
  | _ => none

def Act.own : Act n → Bool
  | .resume => true
  | _ => false

def Point.victims : Point n → List ℕ
  | .sending _ _ _ victims => victims
  | .returning victims => victims
  | .returned victims => victims
  | _ => []

def Point.oneShare : Point n → ℕ
  | .taking _ oneShare => oneShare
  | .sending _ _ oneShare _ => oneShare
  | _ => 0

/-- How often a thread is on one of the queues, or among the victims. -/
def total (s : State n) (t : ℕ) : ℕ := tally (List.count t) s.runqueue + s.point.victims.count t

/-- What the CPU may do in a section. -/
structure Careful (cSelf : Fin n) (curthread : ℕ) (s s' : State n) : Prop where
  cpu : s'.tCpu curthread = s.tCpu curthread
  bounded : ∀ c, c ≠ cSelf → (s'.runqueue c).length ≤ max (s.runqueue c).length s.point.oneShare
  threads : ∀ t, total s' t = total s t

/-- The function goes on, carefully, until it has returned with nothing left
over, after a bounded number of sections; threads come and go with the others only. -/
structure Safe (cSelf : Fin n) (curthread : ℕ) (s₀ : State n) (as : List (Act n)) (s : State n) : Prop where
  goes : (∃ victims, s.point = .returned victims) ∨
    ∃ s', migrate cSelf curthread s = .ok s' ∧ Careful cSelf curthread s s'
  ends : ∀ victims, s.point = .returned victims → victims = []
  short : as.countP Act.own ≤ 2*n+4
  threads : ∀ t, total s t + (as.filterMap Act.removed).count t = total s₀ t + (as.filterMap Act.added).count t

/-- The counts that the function relies on are still good enough. -/
def Point.Sound (q : List ℕ) : Point n → Prop
  | .counting _ _ myCount => myCount ≤ q.length
  | .taking toSend _ => toSend ≤ q.length
  | .sending _ toSend _ victims => toSend ≤ victims.length
  | .returning _ => True
  | .returned victims => victims = []

/-- How many sections are left, at most. -/
def Point.left : Point n → ℕ
  | .counting rest _ _ => rest.length+n+4
  | .taking _ _ => n+3
  | .sending rest _ _ _ => rest.length+2
  | .returning _ => 1
  | .returned _ => 0

variable {cSelf c : Fin n} {curthread oneShare t : ℕ} {s s' s₀ : State n} {q victims : List ℕ} {a : Act n}
  {tCpu : ℕ → Option (Fin n)}

theorem remtail_of_ne (h : q ≠ []) : ∃ t q', threadlistRemtail q = some (t, q') ∧ q = q' ++ [t] :=
  ⟨q.getLast h, q.dropLast, by simp [threadlistRemtail, List.getLast?_eq_some_getLast h],
    (List.dropLast_append_getLast h).symm⟩

theorem takeVictims_spec (i : ℕ) (q victims : List ℕ) (h : i ≤ q.length) : ∃ q' victims',
    takeVictims i q victims = .ok (q', victims') ∧ victims'.length = i + victims.length ∧
      ∀ t, q'.count t + victims'.count t = q.count t + victims.count t := by
  induction i generalizing q victims with
  | zero => exact ⟨q, victims, rfl, by omega, fun _ => rfl⟩
  | succ i ih =>
    have hne : q ≠ [] := by
      rintro rfl
      simp at h
    obtain ⟨t, q', htail, rfl⟩ := remtail_of_ne hne
    rw [List.length_append, List.length_singleton] at h
    obtain ⟨q'', victims', hcall, hlen, hcount⟩ := ih q' (threadlistAddhead victims t) (by omega)
    refine ⟨q'', victims', by simp only [takeVictims, htail, hcall], ?_, ?_⟩
    · rw [hlen, threadlistAddhead, List.length_cons]
      omega
    · intro u
      rw [hcount u, threadlistAddhead, List.count_cons, List.count_append, List.count_singleton]
      omega

/-- There are at least as many victims as are to be sent, as long as the loop goes on. -/
theorem fill_spec (curthread oneShare : ℕ) (c : Fin n) (toSend : ℕ) (victims q : List ℕ) (tCpu : ℕ → Option (Fin n))
    (h : toSend ≤ victims.length) : ∃ f, fill curthread oneShare c toSend victims q tCpu = .ok f ∧
      f.toSend ≤ f.victims.length ∧ f.runqueue.length ≤ max q.length oneShare ∧ f.tCpu curthread = tCpu curthread ∧
        ∀ t, f.runqueue.count t + f.victims.count t = q.count t + victims.count t := by
  induction toSend generalizing victims q tCpu with
  | zero => exact ⟨_, rfl, Nat.zero_le _, Nat.le_max_left _ _, rfl, fun _ => rfl⟩
  | succ toSend ih =>
    by_cases hroom : q.length < oneShare
    · cases victims with
      | nil => simp at h
      | cons t victims =>
        rw [List.length_cons] at h
        by_cases ht : t = curthread
        · obtain ⟨f, hcall, hlen, hbound, hcpu, hcount⟩ := ih (threadlistAddtail victims t) q tCpu
            (by rw [threadlistAddtail, List.length_append]; omega)
          refine ⟨f, ?_, hlen, hbound, hcpu, ?_⟩
          · simp only [fill, if_pos hroom, threadlistRemhead, if_pos ht, hcall]
          · intro u
            rw [hcount u, threadlistAddtail, List.count_append, List.count_singleton, List.count_cons]
        · obtain ⟨f, hcall, hlen, hbound, hcpu, hcount⟩ := ih victims (threadlistAddtail q t) (update tCpu t (some c))
            (by omega)
          refine ⟨f, ?_, hlen, ?_, ?_, ?_⟩
          · simp only [fill, if_pos hroom, threadlistRemhead, if_neg ht, hcall]
          · rw [threadlistAddtail, List.length_append, List.length_singleton] at hbound
            omega
          · rw [hcpu, update_of_ne (Ne.symm ht)]
          · intro u
            rw [hcount u, threadlistAddtail, List.count_append, List.count_singleton, List.count_cons]
            omega
    · exact ⟨⟨toSend+1, victims, q, tCpu⟩, by simp only [fill, if_neg hroom], h, Nat.le_max_left _ _, rfl, fun _ => rfl⟩

theorem giveBack_eq : giveBack victims q = ([], q ++ victims) := by
  induction victims generalizing q with
  | nil => simp [giveBack]
  | cons t victims ih => simp [giveBack, ih, threadlistAddtail]

/-- Threads change places between one queue and the victims. -/
theorem total_exchange {q' : List ℕ} {p : Point n}
    (h : q'.count t + p.victims.count t = (s.runqueue c).count t + s.point.victims.count t) :
    total ⟨update s.runqueue c q', tCpu, p⟩ t = total s t := by
  have hsum := tally_update (List.count t) s.runqueue c q'
  simp only [total]
  omega

theorem total_point {p : Point n} (h : p.victims.count t = s.point.victims.count t) :
    total { s with point := p } t = total s t := by
  simp only [total, h]

/-- A step that goes on with the loop, and moves nothing. -/
theorem careful_point {p : Point n} (h : ∀ t, p.victims.count t = s.point.victims.count t) :
    Careful cSelf curthread s { s with point := p } :=
  ⟨rfl, fun _ _ => Nat.le_max_left _ _, fun t => total_point (h t)⟩

theorem bounded_self {q' : List ℕ} (hc : c ≠ cSelf) :
    (update s.runqueue cSelf q' c).length ≤ max (s.runqueue c).length s.point.oneShare := by
  rw [update_of_ne hc]
  exact Nat.le_max_left _ _

/-- What a section leads to, from where the counts are good enough. -/
def Goes (cSelf : Fin n) (curthread : ℕ) (s : State n) : Prop :=
  ∃ s', migrate cSelf curthread s = .ok s' ∧ Careful cSelf curthread s s' ∧ s'.point.Sound (s'.runqueue cSelf) ∧
    s'.point.left < s.point.left

theorem counting_goes {rest : List (Fin n)} {totalCount myCount : ℕ} (hp : s.point = .counting rest totalCount myCount)
    (hs : s.point.Sound (s.runqueue cSelf)) : Goes cSelf curthread s := by
  rw [hp] at hs
  have hmine : myCount ≤ (s.runqueue cSelf).length := hs
  cases rest with
  | cons c rest =>
    let mine := if c = cSelf then (s.runqueue c).length else myCount
    refine ⟨{ s with point := .counting rest (totalCount + (s.runqueue c).length) mine },
      by simp only [migrate, hp, mine], careful_point (by simp [hp, Point.victims]), ?_, ?_⟩
    · show (if c = cSelf then _ else myCount) ≤ (s.runqueue cSelf).length
      split
      · next hc => rw [hc]
      · exact hmine
    · simp only [hp, Point.left, List.length_cons]
      omega
  | nil =>
    by_cases hshare : myCount < divRoundup totalCount n
    · refine ⟨{ s with point := .returned [] }, by simp only [migrate, hp, if_pos hshare],
        careful_point (by simp [hp, Point.victims]), rfl, ?_⟩
      simp only [hp, Point.left]
      omega
    · refine ⟨{ s with point := .taking (myCount - divRoundup totalCount n) (divRoundup totalCount n) }, ?_,
        careful_point (by simp [hp, Point.victims]), Nat.le_trans (Nat.sub_le _ _) hmine, ?_⟩
      · simp only [migrate, hp, if_neg hshare, minus, if_pos (Nat.le_of_not_lt hshare)]
      · simp only [hp, Point.left, List.length_nil]
        omega

theorem taking_goes {toSend : ℕ} (hp : s.point = .taking toSend oneShare) (hs : s.point.Sound (s.runqueue cSelf)) :
    Goes cSelf curthread s := by
  rw [hp] at hs
  obtain ⟨q', victims, htake, hlen, hcount⟩ := takeVictims_spec toSend (s.runqueue cSelf) [] hs
  refine ⟨⟨update s.runqueue cSelf q', s.tCpu, .sending (List.finRange n) toSend oneShare victims⟩, by simp only [migrate, hp, htake], ⟨rfl, fun c hc => bounded_self hc, ?_⟩, ?_, ?_⟩
  · intro t
    apply total_exchange
    simpa [hp, Point.victims] using hcount t
  · show toSend ≤ victims.length
    omega
  · simp only [hp, Point.left, List.length_finRange]
    omega

theorem sending_goes {rest : List (Fin n)} {toSend : ℕ} (hp : s.point = .sending rest toSend oneShare victims)
    (hs : s.point.Sound (s.runqueue cSelf)) : Goes cSelf curthread s := by
  rw [hp] at hs
  have henough : toSend ≤ victims.length := hs
  cases rest with
  | nil =>
    refine ⟨{ s with point := .returning victims }, by simp only [migrate, hp], careful_point (by simp [hp, Point.victims]),
      trivial, ?_⟩
    simp only [hp, Point.left]
    omega
  | cons c rest =>
    by_cases hzero : toSend = 0
    · refine ⟨{ s with point := .returning victims }, by simp only [migrate, hp, if_pos hzero],
        careful_point (by simp [hp, Point.victims]), trivial, ?_⟩
      simp only [hp, Point.left]
      omega
    · by_cases hc : c = cSelf
      · refine ⟨{ s with point := .sending rest toSend oneShare victims },
          by simp only [migrate, hp, if_neg hzero, if_pos hc], careful_point (by simp [hp, Point.victims]), henough, ?_⟩
        simp only [hp, Point.left, List.length_cons]
        omega
      · obtain ⟨f, hfill, hlen, hbound, hcpu, hcount⟩ := fill_spec curthread oneShare c toSend victims
          (s.runqueue c) s.tCpu henough
        refine ⟨⟨update s.runqueue c f.runqueue, f.tCpu, .sending rest f.toSend oneShare f.victims⟩, by simp only [migrate, hp, if_neg hzero, if_neg hc, hfill], ⟨hcpu, ?_, ?_⟩, hlen, ?_⟩
        · intro d _
          by_cases hd : d = c
          · rw [hd, hp]
            simpa [Point.oneShare] using hbound
          · simp only [update_of_ne hd]
            exact Nat.le_max_left _ _
        · intro t
          apply total_exchange
          simpa [hp, Point.victims] using hcount t
        · simp only [hp, Point.left, List.length_cons]
          omega

theorem returning_goes (hp : s.point = .returning victims) : Goes cSelf curthread s := by
  by_cases hempty : victims = []
  · subst hempty
    refine ⟨{ s with point := .returned [] }, by simp [migrate, hp, finish], careful_point (by simp [hp, Point.victims]),
      rfl, ?_⟩
    simp [hp, Point.left]
  · refine ⟨⟨update s.runqueue cSelf (s.runqueue cSelf ++ victims), s.tCpu, .returned []⟩, ?_,
      ⟨rfl, fun c hc => bounded_self hc, ?_⟩, rfl, ?_⟩
    · simp [migrate, hp, hempty, giveBack_eq, finish]
    · intro t
      apply total_exchange
      simp [hp, Point.victims]
    · simp [hp, Point.left]

theorem migrate_goes (curthread : ℕ) (hs : s.point.Sound (s.runqueue cSelf)) :
    (∃ victims, s.point = .returned victims) ∨ Goes cSelf curthread s := by
  cases hp : s.point with
  | counting rest totalCount myCount => exact .inr (counting_goes hp hs)
  | taking toSend oneShare => exact .inr (taking_goes hp hs)
  | sending rest toSend oneShare victims => exact .inr (sending_goes hp hs)
  | returning victims => exact .inr (returning_goes hp)
  | returned victims => exact .inl ⟨victims, rfl⟩

/-- What an action does to the counts: at most the others' additions and removals. -/
structure Kept (cSelf : Fin n) (as : List (Act n)) (s s' : State n) : Prop where
  sound : s'.point.Sound (s'.runqueue cSelf)
  left : as.countP Act.own + s'.point.left ≤ s.point.left
  threads : ∀ t, total s' t + (as.filterMap Act.removed).count t = total s t + (as.filterMap Act.added).count t

theorem Point.Sound.grow {p : Point n} {q' : List ℕ} (h : p.Sound q) (hq : q.length ≤ q'.length) : p.Sound q' := by
  cases p with
  | counting rest totalCount myCount => exact Nat.le_trans h hq
  | taking toSend oneShare => exact Nat.le_trans h hq
  | _ => exact h

theorem add_kept {i : ℕ} (hs : s.point.Sound (s.runqueue cSelf)) : Kept cSelf [.add c i t] s
    { s with runqueue := update s.runqueue c ((s.runqueue c).take i ++ t :: (s.runqueue c).drop i) } := by
  have hcount : ∀ u, ((s.runqueue c).take i ++ t :: (s.runqueue c).drop i).count u =
      (s.runqueue c).count u + [t].count u := by
    intro u
    rw [List.count_append, List.count_cons, List.count_singleton]
    have hsplit := congrArg (List.count u) (List.take_append_drop i (s.runqueue c))
    rw [List.count_append] at hsplit
    omega
  refine ⟨hs.grow ?_, ?_, ?_⟩
  · show (s.runqueue cSelf).length ≤ (update s.runqueue c _ cSelf).length
    by_cases hc : cSelf = c
    · rw [hc, update_self]
      simp
      omega
    · rw [update_of_ne hc]
  · simp [Act.own]
  · intro u
    have hsum := tally_update (List.count u) s.runqueue c ((s.runqueue c).take i ++ t :: (s.runqueue c).drop i)
    have hu := hcount u
    simp only [total, List.filterMap_cons, Act.removed, Act.added, List.filterMap_nil, List.count_nil]
    omega

theorem remove_kept (hs : s.point.Sound (s.runqueue cSelf)) (hc : c ≠ cSelf) (ht : t ∈ s.runqueue c) :
    Kept cSelf [.remove c t] s { s with runqueue := update s.runqueue c ((s.runqueue c).erase t) } := by
  have hcount : ∀ u, ((s.runqueue c).erase t).count u + [t].count u = (s.runqueue c).count u := by
    intro u
    rw [List.count_singleton]
    by_cases hu : u = t
    · subst hu
      have hpos := List.count_pos_iff.mpr ht
      rw [List.count_erase_self]
      simp
      omega
    · rw [List.count_erase_of_ne hu]
      simp [Ne.symm hu]
  refine ⟨?_, ?_, ?_⟩
  · simp only [update_of_ne (Ne.symm hc)]
    exact hs
  · simp [Act.own]
  · intro u
    have hsum := tally_update (List.count u) s.runqueue c ((s.runqueue c).erase t)
    have hu := hcount u
    simp only [total, List.filterMap_cons, Act.removed, Act.added, List.filterMap_nil, List.count_nil]
    omega

theorem step_kept (hs : s.point.Sound (s.runqueue cSelf)) (ha : Allowed cSelf a s) (hstep : step cSelf curthread a s = .ok s') :
    Kept cSelf [a] s s' := by
  cases a with
  | resume =>
    obtain ⟨victims, hp⟩ | ⟨u, hu, hcareful, hsound, hleft⟩ := migrate_goes curthread hs
    · simp [step, migrate, hp] at hstep
    · have hsame : s' = u := Except.ok.inj (hstep.symm.trans hu)
      subst hsame
      refine ⟨hsound, ?_, ?_⟩
      · simp only [List.countP_singleton, Act.own, if_true]
        omega
      · intro t
        show total s' t + 0 = total s t + 0
        rw [hcareful.threads t]
  | add c i t =>
    cases hstep
    exact add_kept hs
  | remove c t =>
    cases hstep
    exact remove_kept hs ha.1 ha.2
  | setCpu t c =>
    cases hstep
    exact ⟨hs, by simp [Act.own], fun _ => rfl⟩

theorem run_kept {as : List (Act n)} (hs : s.point.Sound (s.runqueue cSelf))
    (hg : Runs.Guarded (step cSelf curthread) (Allowed cSelf) as s) (hr : Runs.run (step cSelf curthread) as s = .ok s') :
    Kept cSelf as s s' := by
  induction as generalizing s with
  | nil =>
    cases hr
    exact ⟨hs, by simp, fun _ => rfl⟩
  | cons a as ih =>
    obtain ⟨u, hu, hrest⟩ := Runs.run_cons_ok.mp hr
    have hone := step_kept hs hg.1 hu
    have hmany := ih hone.sound (hg.2 u hu) hrest
    refine ⟨hmany.sound, ?_, ?_⟩
    · have hleft := hone.left
      have hleft' := hmany.left
      rw [List.countP_singleton] at hleft
      rw [List.countP_cons]
      omega
    · intro t
      have ht := hone.threads t
      have ht' := hmany.threads t
      have happend : ∀ f : Act n → Option ℕ, ((a::as).filterMap f).count t =
          ([a].filterMap f).count t + (as.filterMap f).count t := by
        intro f
        rw [← List.count_append, ← List.filterMap_append, List.singleton_append]
      rw [happend, happend]
      omega

/-- On any number of CPUs, with any queues and whatever the others add to them
and take from theirs, `thread_consider_migration` is safe at every point. -/
theorem migration_safe (cSelf : Fin n) (curthread : ℕ) (runqueue : Fin n → List ℕ) (tCpu : ℕ → Option (Fin n))
    (as : List (Act n)) (s : State n)
    (hg : Runs.Guarded (step cSelf curthread) (Allowed cSelf) as (start runqueue tCpu))
    (hr : Runs.run (step cSelf curthread) as (start runqueue tCpu) = .ok s) :
    Safe cSelf curthread (start runqueue tCpu) as s := by
  have hkept := run_kept (Nat.zero_le _) hg hr
  refine ⟨?_, ?_, ?_, hkept.threads⟩
  · obtain hreturned | ⟨s', hstep, hcareful, -⟩ := migrate_goes curthread hkept.sound
    · exact .inl hreturned
    · exact .inr ⟨s', hstep, hcareful⟩
  · intro victims hp
    have hsound := hkept.sound
    rw [hp] at hsound
    exact hsound
  · have hleft := hkept.left
    simp only [start, Point.left, List.length_finRange] at hleft
    omega

section Scheduler

variable {W : Type} {rest : List (Fin n)}

theorem takeVictims_eq (i : ℕ) (q victims : List ℕ) : takeVictims i q victims =
    if i ≤ q.length then .ok (q.take (q.length-i), q.drop (q.length-i) ++ victims) else .error .panic := by
  induction i generalizing q victims with
  | zero => simp [takeVictims]
  | succ i ih =>
    by_cases hq : q = []
    · subst hq
      simp [takeVictims, threadlistRemtail]
    · obtain ⟨t, q', htail, rfl⟩ := remtail_of_ne hq
      simp only [takeVictims, htail]
      rw [ih, threadlistAddhead, List.length_append, List.length_singleton]
      by_cases hi : i ≤ q'.length
      · have hlen : q'.length+1-(i+1) = q'.length-i := by omega
        have hle : q'.length-i ≤ q'.length := Nat.sub_le _ _
        rw [if_pos hi, if_pos (by omega), hlen, List.take_append_of_le_length hle, List.drop_append_of_le_length hle]
        simp
      · rw [if_neg hi, if_neg (by omega)]

/-- The scheduler's model takes the victims in one go. -/
theorem take_eq (s : Scheduler.State (Fin n) W) (toSend oneShare : ℕ) :
    Scheduler.take (List.finRange n) c toSend oneShare s = (takeVictims toSend (s.runqueue c) []).map (fun r =>
      (s.setRunqueue c r.1).hold c (.sending (List.finRange n) toSend oneShare r.2)) := by
  rw [takeVictims_eq, Scheduler.take]
  split <;> simp [Except.map]

/-- Its loop over another CPU's queue is `fill`. -/
theorem sendTo_eq (s : Scheduler.State (Fin n) W) (d : Fin n) (oneShare toSend : ℕ) (victims : List ℕ) :
    Scheduler.sendTo c d rest oneShare toSend victims s =
      (fill (s.curthread c) oneShare d toSend victims (s.runqueue d) s.tCpu).map (fun f =>
        { s with runqueue := update s.runqueue d f.runqueue, tCpu := f.tCpu }.hold c
          (.sending rest f.toSend oneShare f.victims)) := by
  induction toSend generalizing victims s with
  | zero => simp [Scheduler.sendTo, fill, Except.map]
  | succ toSend ih =>
    by_cases hroom : (s.runqueue d).length < oneShare
    · cases victims with
      | nil => simp [Scheduler.sendTo, fill, hroom, threadlistRemhead, Except.map]
      | cons t victims =>
        by_cases ht : t = s.curthread c
        · simp only [Scheduler.sendTo, fill, if_pos hroom, threadlistRemhead, if_pos ht, ih, threadlistAddtail]
        · simp only [Scheduler.sendTo, fill, if_pos hroom, threadlistRemhead, if_neg ht, ih, threadlistAddtail]
          simp [Scheduler.migrate, Scheduler.State.enqueue, Scheduler.State.setRunqueue]
    · simp [Scheduler.sendTo, fill, hroom, Except.map]

end Scheduler

instance decidableAllowed : ∀ (a : Act n) (s : State n), Decidable (Allowed cSelf a s)
  | .resume, _ => isTrue trivial
  | .add _ _ _, _ => isTrue trivial
  | .remove c t, s => inferInstanceAs (Decidable (c ≠ cSelf ∧ t ∈ s.runqueue c))
  | .setCpu _ _, _ => isTrue trivial

/-- Four threads wait on CPU 0, the current one among them. CPU 1 gets a thread of
its own after the counting, so that one of the two victims stays. -/
theorem oneStays_safe : ∃ s : State 2,
    Runs.run (step 0 9) [.resume, .resume, .resume, .add 1 0 7, .resume, .resume, .resume, .resume, .resume]
      (start (fun c => if c = 0 then [1, 2, 9, 3] else []) (fun _ => some 0)) = .ok s ∧
    s.point = .returned [] ∧ s.runqueue 0 = [1, 2, 9] ∧ s.runqueue 1 = [7, 3] ∧
    Safe 0 9 (start (fun c => if c = 0 then [1, 2, 9, 3] else []) (fun _ => some 0))
      [.resume, .resume, .resume, .add 1 0 7, .resume, .resume, .resume, .resume, .resume] s := by
  obtain ⟨s, hr, hp, h0, h1⟩ : ∃ s : State 2,
      Runs.run (step 0 9) [.resume, .resume, .resume, .add 1 0 7, .resume, .resume, .resume, .resume, .resume]
        (start (fun c => if c = 0 then [1, 2, 9, 3] else []) (fun _ => some 0)) = .ok s ∧
      s.point = .returned [] ∧ s.runqueue 0 = [1, 2, 9] ∧ s.runqueue 1 = [7, 3] := by decide +kernel
  exact ⟨s, hr, hp, h0, h1, migration_safe 0 9 _ _ _ s (by decide +kernel) hr⟩

end OS161.Migration
