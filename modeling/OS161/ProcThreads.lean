import OS161.Runs
import OS161.Slots
import OS161.Vfs

/-!
# Threads of a process

Threads are attached to a process when they are created and detach from it when
they exit. `proc_remthread` then destroys the process, whether or not it has
other threads and whether or not it is the kernel's.
-/

set_option autoImplicit false

namespace OS161.ProcThreads

open Function OS161.Slots OS161.Vfs

structure Pcb where
  numThreads : ℕ
  deriving DecidableEq

/-- `procOf` is `t_proc`. Threads are numbered in the order of their creation;
`had` only records the processes that have had a thread. -/
structure State where
  procs : Store Pcb
  threads : ℕ
  procOf : ℕ → Option ℕ
  had : ℕ → Bool

def kproc : ℕ := 0

def procCreate (s : State) : State := { s with procs := s.procs.alloc ⟨0⟩ }

def procAddthread (p t : ℕ) (s : State) : Except Stop State :=
  if s.procOf t ≠ none then .error .panic
  else match s.procs.get p with
    | none => .error .useAfterFree
    | some pcb => .ok { s with
        procs := s.procs.set p ⟨pcb.numThreads+1⟩
        procOf := update s.procOf t (some p)
        had := update s.had p true }

def procDestroy (p : ℕ) (s : State) : Except Stop State :=
  if p = kproc then .error .panic
  else match s.procs.get p with
    | none => .error .useAfterFree
    | some pcb =>
      if pcb.numThreads ≠ 0 then .error .panic
      else .ok { s with procs := s.procs.free p }

def procRemthread (t : ℕ) (s : State) : Except Stop State :=
  match s.procOf t with
  | none => .error .panic
  | some p => match s.procs.get p with
    | none => .error .useAfterFree
    | some pcb =>
      if pcb.numThreads = 0 then .error .panic
      else procDestroy p { s with
        procs := s.procs.set p ⟨pcb.numThreads-1⟩
        procOf := update s.procOf t none }

/-- A new thread in process `proc`, or in the caller's own. -/
def threadFork (t : ℕ) (proc : Option ℕ) (memory : Bool) (s : State) : Except Stop State :=
  match s.procOf t with
  | none => .error .blocked
  | some own =>
    if memory then procAddthread (proc.getD own) s.threads { s with threads := s.threads+1 }
    else .ok s

def threadExit (t : ℕ) (s : State) : Except Stop State :=
  if s.procOf t = none then .error .blocked else procRemthread t s

inductive Action where
  | procCreate
  | cpuCreate
  | threadFork (t : ℕ) (proc : Option ℕ) (memory : Bool)
  | threadExit (t : ℕ)

/-- `cpu_create` puts the first thread of the processor into the kernel's process. -/
def step (a : Action) (s : State) : Except Stop State :=
  match a with
  | .procCreate => .ok (procCreate s)
  | .cpuCreate => procAddthread kproc s.threads { s with threads := s.threads+1 }
  | .threadFork t proc memory => threadFork t proc memory s
  | .threadExit t => threadExit t s

abbrev run : List Action → State → Except Stop State := Runs.run step

/-- After `proc_bootstrap` and `thread_bootstrap`: the kernel's process with the
first thread. -/
def boot : State where
  procs := Store.empty.alloc ⟨1⟩
  threads := 1
  procOf := update (fun _ => none) 0 (some kproc)
  had := update (fun _ => false) kproc true

/-- 1 for a thread of the process. -/
def attached (p : ℕ) (o : Option ℕ) : ℕ := if o = some p then 1 else 0

def threadsOf (s : State) (p : ℕ) : ℕ := total (fun t => attached p (s.procOf t)) s.threads

/-- The thread is the last one of its process, which is not the kernel's. -/
def LastLeaves : Action → State → Prop
  | .threadExit t, s => ∀ p, s.procOf t = some p → p ≠ kproc ∧ threadsOf s p = 1
  | _, _ => True

instance : ∀ a s, Decidable (LastLeaves a s)
  | .threadExit t, s => match h : s.procOf t with
    | none => isTrue (fun _ hp => nomatch h.symm.trans hp)
    | some q => decidable_of_iff (q ≠ kproc ∧ threadsOf s q = 1)
        ⟨fun hq _ hp => Option.some.inj (h.symm.trans hp) ▸ hq, fun hq => hq q h⟩
  | .procCreate, _ => isTrue trivial
  | .cpuCreate, _ => isTrue trivial
  | .threadFork _ _ _, _ => isTrue trivial

structure Attached (s : State) : Prop where
  fresh : ∀ t, s.threads ≤ t → s.procOf t = none
  live : ∀ t p, s.procOf t = some p → s.procs.live p = true
  had : ∀ t p, s.procOf t = some p → s.had p = true
  counts : ∀ p pcb, s.procs.get p = some pcb → pcb.numThreads = threadsOf s p
  destroyed : ∀ p, p < s.procs.next → (s.procs.live p = false ↔ s.had p = true ∧ threadsOf s p = 0)
  young : ∀ p, s.procs.next ≤ p → s.had p = false
  kernel : s.procs.live kproc = true

variable {s s' : State}

theorem Attached.lt (h : Attached s) {t p : ℕ} (ht : s.procOf t = some p) : t < s.threads := by
  by_contra hge
  rw [h.fresh t (by omega)] at ht
  cases ht

theorem threads_pos {t p : ℕ} (ht : s.procOf t = some p) (hlt : t < s.threads) : 0 < threadsOf s p :=
  total_pos.mpr ⟨t, hlt, by simp [attached, ht]⟩

theorem Attached.young_threads (h : Attached s) {p : ℕ} (hp : s.procs.next ≤ p) : threadsOf s p = 0 := by
  by_contra hne
  obtain ⟨t, -, hpos⟩ := total_pos.mp (Nat.pos_of_ne_zero hne)
  have ht : s.procOf t = some p := by
    by_contra hno
    simp [attached, hno] at hpos
  have := s.procs.live_lt (h.live t p ht)
  omega

theorem create_attached (h : Attached s) : Attached (procCreate s) := by
  have hth : ∀ p, threadsOf (procCreate s) p = threadsOf s p := fun _ => rfl
  refine ⟨h.fresh, ?_, h.had, ?_, ?_, ?_, Store.alloc_live h.kernel _⟩
  · intro t p ht
    exact Store.alloc_live (h.live t p ht) _
  · intro p pcb hp
    rw [hth]
    rcases Store.alloc_get_cases hp with ⟨rfl, rfl⟩ | ⟨-, hold⟩
    · exact (h.young_threads le_rfl).symm
    · exact h.counts p pcb hold
  · intro p hp
    rw [hth]
    by_cases hpn : p = s.procs.next
    · simp [procCreate, Store.alloc, hpn, h.young s.procs.next le_rfl]
    · have hlt : p < s.procs.next := by
        simp only [procCreate, Store.alloc_next] at hp
        omega
      show update s.procs.live s.procs.next true p = false ↔ s.had p = true ∧ _
      rw [update_of_ne hpn, h.destroyed p hlt]
  · intro p hp
    simp only [procCreate, Store.alloc_next] at hp
    exact h.young p (by omega)

/-- A new thread counts once, for its own process. -/
theorem threads_added {p q : ℕ} {s' : State}
    (hprocOf : s'.procOf = update s.procOf s.threads (some p)) (hthreads : s'.threads = s.threads+1) :
    threadsOf s' q = threadsOf s q + if q = p then 1 else 0 := by
  have hold : total (fun t => attached q (s'.procOf t)) s.threads = threadsOf s q := by
    apply total_congr
    intro t ht
    rw [hprocOf, update_of_ne (by omega)]
  rw [threadsOf, hthreads, total_succ, hold, hprocOf, update_self, attached]
  by_cases hqp : q = p
  · simp [hqp]
  · simp [hqp, Ne.symm hqp]

theorem add_attached (h : Attached s) {p : ℕ}
    (hs : procAddthread p s.threads { s with threads := s.threads+1 } = .ok s') : Attached s' := by
  have hnew := h.fresh s.threads le_rfl
  simp only [procAddthread, hnew, ne_eq, not_true_eq_false, if_false] at hs
  split at hs
  · cases hs
  · next pcb hp =>
    cases hs
    have hlive := (Store.get_some.mp hp).1
    have hplt := s.procs.live_lt hlive
    have hth : ∀ q, threadsOf _ q = threadsOf s q + if q = p then 1 else 0 :=
      fun q => @threads_added s p q ⟨s.procs.set p ⟨pcb.numThreads+1⟩, s.threads+1,
        update s.procOf s.threads (some p), update s.had p true⟩ rfl rfl
    have hold : ∀ t q, t ≠ s.threads → update s.procOf s.threads (some p) t = some q →
        s.procOf t = some q := by
      intro t q htn ht
      rwa [update_of_ne htn] at ht
    refine ⟨?_, ?_, ?_, ?_, ?_, ?_, h.kernel⟩
    · intro t ht
      have hle : s.threads+1 ≤ t := ht
      show update s.procOf s.threads (some p) t = none
      rw [update_of_ne (by omega), h.fresh t (by omega)]
    · intro t q ht
      by_cases htn : t = s.threads
      · rw [htn] at ht
        have hpq : p = q := by simpa using ht
        exact hpq ▸ hlive
      · exact h.live t q (hold t q htn ht)
    · intro t q ht
      show update s.had p true q = true
      by_cases hqp : q = p
      · rw [hqp, update_self]
      · have htn : t ≠ s.threads := by
          rintro rfl
          exact hqp (by simpa using ht.symm)
        rw [update_of_ne hqp]
        exact h.had t q (hold t q htn ht)
    · intro q c hq
      rw [hth]
      rcases Store.set_get_cases hp hq with ⟨rfl, rfl⟩ | ⟨hqp, hold⟩
      · simp [h.counts q pcb hp]
      · simp [hqp, h.counts q c hold]
    · intro q hq
      rw [hth]
      by_cases hqp : q = p
      · simp [hqp, hlive]
      · simpa [hqp] using h.destroyed q hq
    · intro q hq
      have hle : s.procs.next ≤ q := hq
      show update s.had p true q = false
      rw [update_of_ne (by omega), h.young q hle]

theorem threads_left {t p q : ℕ} (ht : s.procOf t = some p) (hlt : t < s.threads)
    (hprocOf : s'.procOf = update s.procOf t none) (hthreads : s'.threads = s.threads) :
    threadsOf s' q + (if q = p then 1 else 0) = threadsOf s q := by
  have hchange := total_change (f := fun u => attached q (s'.procOf u))
    (g := fun u => attached q (s.procOf u)) hlt (by
      intro u hu
      simp only [hprocOf, update_of_ne hu])
  have hself : attached q (s'.procOf t) = 0 := by simp [hprocOf, attached]
  have hbefore : attached q (s.procOf t) = if q = p then 1 else 0 := by
    by_cases hqp : q = p
    · simp [attached, ht, hqp]
    · simp [attached, ht, hqp, Ne.symm hqp]
  rw [threadsOf, threadsOf, hthreads]
  simp only [hself, hbefore] at hchange
  omega

/-- An exit succeeds only for the last thread of a process of its own, and
destroys the process. -/
theorem exit_cases (h : Attached s) {t p : ℕ} (ht : s.procOf t = some p) :
    (p ≠ kproc ∧ threadsOf s p = 1 ∧ ∃ s', threadExit t s = .ok s' ∧ s'.threads = s.threads ∧
      s'.procOf = update s.procOf t none ∧ s'.had = s.had ∧ ∃ c, s'.procs = (s.procs.set p c).free p) ∨
    ((p = kproc ∨ threadsOf s p ≠ 1) ∧ threadExit t s = .error .panic) := by
  obtain ⟨pcb, hpcb⟩ := s.procs.live_cell p (h.live t p ht)
  have hget : s.procs.get p = some pcb := Store.get_some.mpr ⟨h.live t p ht, hpcb⟩
  have hcount := h.counts p pcb hget
  have hpos := Nat.ne_of_gt (threads_pos ht (h.lt ht))
  by_cases hk : p = kproc
  · right
    refine ⟨.inl hk, ?_⟩
    subst hk
    simp [threadExit, procRemthread, procDestroy, ht, hget, hcount, hpos]
  · by_cases hone : threadsOf s p = 1
    · left
      refine ⟨hk, hone, { s with
        procs := (s.procs.set p ⟨pcb.numThreads-1⟩).free p
        procOf := update s.procOf t none }, ?_, rfl, rfl, rfl, ⟨pcb.numThreads-1⟩, rfl⟩
      simp [threadExit, procRemthread, procDestroy, ht, hget, hk, Store.set_get_self hget, hcount, hone]
    · right
      refine ⟨.inr hone, ?_⟩
      have hrest : threadsOf s p - 1 ≠ 0 := by omega
      simp [threadExit, procRemthread, procDestroy, ht, hget, hk, Store.set_get_self hget, hcount, hpos,
        hrest]

theorem exit_attached (h : Attached s) {t : ℕ} (hs : threadExit t s = .ok s') : Attached s' := by
  cases ht : s.procOf t with
  | none => simp [threadExit, ht] at hs
  | some p =>
    rcases exit_cases h ht with ⟨hk, hone, u, hu, hthreads, hprocOf, hhad, c, hprocs⟩ | ⟨-, hpanic⟩
    · rw [hs] at hu
      cases hu
      obtain ⟨pcb, hcell⟩ := s.procs.live_cell p (h.live t p ht)
      have hget : s.procs.get p = some pcb := Store.get_some.mpr ⟨h.live t p ht, hcell⟩
      have hth : ∀ q, threadsOf s' q + (if q = p then 1 else 0) = threadsOf s q :=
        fun q => threads_left ht (h.lt ht) hprocOf hthreads
      have hzero : threadsOf s' p = 0 := by
        have := hth p
        rw [if_pos rfl] at this
        omega
      have hsame : ∀ q, q ≠ p → threadsOf s' q = threadsOf s q := by
        intro q hq
        simpa [hq] using hth q
      have hlive : ∀ q, q ≠ p → s'.procs.live q = s.procs.live q := by
        intro q hq
        simp [hprocs, Store.free, update_of_ne hq]
      have hnext : s'.procs.next = s.procs.next := by simp [hprocs]
      have hold : ∀ u q, s'.procOf u = some q → u ≠ t ∧ s.procOf u = some q := by
        intro u q hu
        rw [hprocOf] at hu
        by_cases hut : u = t
        · rw [hut, update_self] at hu
          cases hu
        · exact ⟨hut, by rwa [update_of_ne hut] at hu⟩
      refine ⟨?_, ?_, ?_, ?_, ?_, ?_, ?_⟩
      · intro u hu
        rw [hthreads] at hu
        by_cases hut : u = t
        · simp [hprocOf, hut]
        · rw [hprocOf, update_of_ne hut, h.fresh u hu]
      · intro u q hu
        obtain ⟨hut, hu'⟩ := hold u q hu
        have hqp : q ≠ p := by
          rintro rfl
          have hpos := threads_pos hu (by rw [hthreads]; exact h.lt hu')
          omega
        rw [hlive q hqp]
        exact h.live u q hu'
      · intro u q hu
        rw [hhad]
        exact h.had u q (hold u q hu).2
      · intro q d hq
        rw [hprocs] at hq
        obtain ⟨hqp, hq'⟩ := Store.free_get_cases hq
        rw [Store.set_get hqp] at hq'
        rw [hsame q hqp]
        exact h.counts q d hq'
      · intro q hq
        rw [hnext] at hq
        by_cases hqp : q = p
        · simp [hqp, hprocs, Store.free, hhad, h.had t p ht, hzero]
        · rw [hlive q hqp, hsame q hqp, hhad]
          exact h.destroyed q hq
      · intro q hq
        rw [hnext] at hq
        rw [hhad]
        exact h.young q hq
      · rw [hlive kproc (Ne.symm hk)]
        exact h.kernel
    · rw [hs] at hpanic
      cases hpanic

theorem step_attached {a : Action} (h : Attached s) (hs : step a s = .ok s') : Attached s' := by
  cases a with
  | procCreate =>
    cases hs
    exact create_attached h
  | cpuCreate => exact add_attached h hs
  | threadFork t proc memory =>
    simp only [step, threadFork] at hs
    split at hs
    · cases hs
    · cases memory with
      | false =>
        cases hs
        exact h
      | true => exact add_attached h hs
  | threadExit t => exact exit_attached h hs

theorem boot_attached : Attached boot := by
  have hprocOf : ∀ t p, boot.procOf t = some p → t = 0 ∧ p = kproc := by
    intro t p ht
    by_cases ht0 : t = 0
    · subst ht0
      exact ⟨rfl, (Option.some.inj ht).symm⟩
    · simp [boot, update_of_ne ht0] at ht
  refine ⟨?_, ?_, ?_, ?_, ?_, ?_, rfl⟩
  · intro t ht
    have hle : 1 ≤ t := ht
    have ht0 : t ≠ 0 := by omega
    simp [boot, ht0]
  · intro t p ht
    rw [(hprocOf t p ht).2]
    rfl
  · intro t p ht
    rw [(hprocOf t p ht).2]
    rfl
  · intro p pcb hp
    rcases Store.alloc_get_cases (show (Store.empty.alloc ⟨1⟩).get p = some pcb from hp) with
      ⟨rfl, rfl⟩ | ⟨-, hold⟩
    · rfl
    · simp [Store.get, Store.empty] at hold
  · intro p hp
    have hp0 : p = 0 := by
      have hlt : p < 1 := hp
      omega
    subst hp0
    decide
  · intro p hp
    have hle : 1 ≤ p := hp
    have hpk : p ≠ kproc := by
      simp only [kproc]
      omega
    simp [boot, hpk]

/-- The count of a process is the number of its threads, and a process is gone
exactly if it has had threads and the last one has left; the kernel's stays. -/
structure ThreadsRight (s : State) : Prop where
  counts : ∀ p pcb, s.procs.get p = some pcb → pcb.numThreads = threadsOf s p
  destroyed : ∀ p, p < s.procs.next → (s.procs.live p = false ↔ s.had p = true ∧ threadsOf s p = 0)
  kernel : s.procs.live kproc = true

theorem add_no_panic (h : Attached s) (p : ℕ) :
    procAddthread p s.threads { s with threads := s.threads+1 } ≠ .error .panic := by
  simp only [procAddthread, h.fresh s.threads le_rfl, ne_eq, not_true_eq_false, if_false]
  split <;> simp

/-- The one assertion that can fail is the one of an exit that is not the last. -/
theorem step_panics (h : Attached s) (a : Action) : LastLeaves a s ↔ step a s ≠ .error .panic := by
  cases a with
  | procCreate => simp [LastLeaves, step]
  | cpuCreate => simpa [LastLeaves, step] using add_no_panic h kproc
  | threadFork t proc memory =>
    simp only [LastLeaves, step, threadFork, true_iff]
    split
    · simp
    · cases memory with
      | false => simp
      | true => exact add_no_panic h _
  | threadExit t =>
    cases ht : s.procOf t with
    | none => simp [LastLeaves, step, threadExit, ht]
    | some p =>
      have hlast : LastLeaves (.threadExit t) s ↔ p ≠ kproc ∧ threadsOf s p = 1 := by
        simp [LastLeaves, ht]
      rw [hlast]
      rcases exit_cases h ht with ⟨hk, hone, s', hs, -⟩ | ⟨hor, hpanic⟩
      · simp [step, hs, hk, hone]
      · simp only [step, hpanic, ne_eq, not_true_eq_false, iff_false, not_and]
        intro hk hone
        rcases hor with hor | hor
        · exact hk hor
        · exact hor hone

/-- Threads leave their processes as they should, in any run, exactly if every
thread that exits is the last one of a process other than the kernel's. -/
theorem run_threads_iff (as : List Action) :
    (run as boot ≠ .error .panic ∧ ∀ t, run as boot = .ok t → ThreadsRight t) ↔
      Runs.Guarded step LastLeaves as boot := by
  rw [Runs.guarded_iff (fun _ _ _ h hs => step_attached h hs) (fun a _ h => step_panics h a) boot_attached]
  refine ⟨fun h => h.1, fun h => ⟨h, fun t hr => ?_⟩⟩
  have ha : Attached t := Runs.run_invariant (fun _ _ _ h hs => step_attached h hs) boot_attached hr
  exact ⟨ha.counts, ha.destroyed, ha.kernel⟩

/-- A thread that a kernel test has forked into the kernel's process returns. -/
def kernelTest : List Action := [.threadFork 0 none true]

/-- A program with a second thread, of which the first one exits. -/
def twoThreads : List Action :=
  [.procCreate, .threadFork 0 (some 1) true, .threadFork 1 none true]

theorem kernelTest_panics :
    (∃ t, run kernelTest boot = .ok t ∧ t.procOf 1 = some kproc ∧ threadsOf t kproc = 2 ∧
      threadExit 1 t = .error .panic) ∧
    ∃ t, run twoThreads boot = .ok t ∧ t.procOf 1 = some 1 ∧ threadsOf t 1 = 2 ∧
      threadExit 1 t = .error .panic := by
  decide +kernel

end OS161.ProcThreads
