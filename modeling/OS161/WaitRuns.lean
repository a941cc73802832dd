import OS161.ExitWait

/-!
# Whole runs of exit and waitpid

The books of the table, the parents' records and the state of the sleepers are
kept together by every step that comes in time.
-/

set_option autoImplicit false

namespace OS161.WaitRuns

open Function OS161.Slots OS161.Vfs OS161.ProcessTable OS161.ProcessEffects OS161.ProcessSteps
open OS161.ProcessKin OS161.KinSteps OS161.ProcessEntries OS161.PidLedger OS161.ChildLedger
open OS161.ExitWait

variable {s s' : System}

/-- A target that is found has not exited: `sys_waitpid` never reaps at once. -/
theorem no_reap {p e : ℕ} {k : ℤ} {st : Status} {i : Fin MAX_PROCS} {pcb : Proc} {en : Entry}
    (h : Ledger s) (hask : Asking p k i e pcb s)
    (hfound : hasChild pcb.childs k s (List.finRange _) = .ok true) (hreap : Reaping p k e st en s s') :
    False := by
  obtain ⟨j, c, fn, -, -, hown⟩ := found_own h hask hfound
  have hen : en = fn := Option.some.inj (hreap.entry.symm.trans hown.entry)
  have hterm := hreap.termed
  rw [hen, hown.termed] at hterm
  cases hterm

theorem wake_books {p e : ℕ} {k : ℤ} {st : Status} {en : Entry} (h : Ledger s) (hkin : Kin s')
    (hst : Steady s s') (hp : s.stage p = .woken k e st) (hreap : Reaping p k e st en s s') :
    Books s' := by
  obtain ⟨i, fn, hi, hslot, hfn, hterm, hc, -, -⟩ := h.hearings.woken p k e st hp
  have hpos := (h.records.known p k _ hc).2.2.2
  have hi0 : i ≠ 0 := by
    rintro rfl
    simp at hi
    omega
  have htable := hreap.table
  split at htable
  · exact h.books.frame hkin hst hreap.entries htable
  · rw [← hi, clearAt_val] at htable
    exact h.books.clear hkin hi0 hslot hfn hterm hst hreap.entries htable

/-- Who sleeps after one process has gone on slept before, on the same records. -/
theorem sleepers_kept {p : ℕ} {st : Stage} (hst : awaited st = none)
    (hstage : s'.stage = update s.stage p st)
    (hother : ∀ q, q ≠ p → s'.known q = s.known q ∧ s'.procs.get q = s.procs.get q)
    (q : ℕ) (hq : awaited (s'.stage q) ≠ none) :
    s'.stage q = s.stage q ∧ s'.known q = s.known q ∧ s'.procs.get q = s.procs.get q := by
  rw [hstage] at hq ⊢
  have hqp : q ≠ p := by
    rintro rfl
    rw [update_self] at hq
    exact hq hst
  exact ⟨update_of_ne hqp _ _, hother q hqp⟩

theorem sleepers_kept_two {p c : ℕ} {st born : Stage} (hst : awaited st = none)
    (hborn : awaited born = none) (hstage : s'.stage = update (update s.stage c born) p st)
    (hother : ∀ q, q ≠ c → s'.known q = s.known q ∧ s'.procs.get q = s.procs.get q)
    (q : ℕ) (hq : awaited (s'.stage q) ≠ none) :
    s'.stage q = s.stage q ∧ s'.known q = s.known q ∧ s'.procs.get q = s.procs.get q := by
  rw [hstage] at hq ⊢
  have hqp : q ≠ p := by
    rintro rfl
    rw [update_self] at hq
    exact hq hst
  rw [update_of_ne hqp] at hq ⊢
  have hqc : q ≠ c := by
    rintro rfl
    rw [update_self] at hq
    exact hq hborn
  exact ⟨update_of_ne hqc _ _, hother q hqc⟩

/-- Which calls `sys_waitpid` refuses. -/
theorem refused_dead {p c : ℕ} {k : ℤ} (h : Ledger s)
    (hno : (k ≤ 0 ∨ ∃ i : Fin MAX_PROCS, (i.val : ℤ) = k ∧ s.table i = none) ∨
      ∃ pcb, s.procs.get p = some pcb ∧ hasChild pcb.childs k s (List.finRange _) = .ok false)
    (hc : s.known p k = some c) : s.exits c ≠ none := by
  intro hx
  obtain ⟨i, e, en, hown, hi⟩ := known_own h hc hx
  rcases hno with (hle | ⟨j, hj, hnone⟩) | ⟨pcb, hpcb, hfalse⟩
  · have hpos := (h.records.known p k c hc).2.2.2
    omega
  · have hij : j = i := Fin.ext (by exact_mod_cast hj.trans hi.symm)
    rw [hij, hown.slot] at hnone
    cases hnone
  · rw [known_found h hc hx hpcb] at hfalse
    cases hfalse

theorem effect_ledger {a : Action} (h : Ledger s) (hg : Timely a s) (he : Effect s a s') :
    Ledger s' := by
  have hrec : Recorded a s := by
    cases a with
    | exit p code => exact hg
    | _ => trivial
  have hkin := effect_kin h.books.kin hrec he
  have hrecords := effect_records h.records h.books he
  have hall : ∀ {s' : System} (p : ℕ), s'.known = s.known → s'.procs = s.procs →
      ∀ q, q ≠ p → s'.known q = s.known q ∧ s'.procs.get q = s.procs.get q :=
    fun _ hk hp q _ => ⟨by rw [hk], by rw [hp]⟩
  have hfreed : ∀ c q, q ≠ c → s.known q = s.known q ∧ (s.procs.free c).get q = s.procs.get q :=
    fun c q hq => ⟨rfl, Store.free_get hq⟩
  rcases effect_steady h.books.kin he with ⟨p, k, junk, rfl, hp, hins⟩ | hst
  · exact ⟨insert_books h.books hkin hp (hg rfl) hins, hrecords, insert_hearings h hp hins⟩
  have hframe : s'.entries = s.entries → s'.table = s.table → s'.exits = s.exits →
      s'.calls = s.calls → (∀ p, awaited (s'.stage p) ≠ none → s'.stage p = s.stage p ∧
      s'.known p = s.known p ∧ s'.procs.get p = s.procs.get p) → Ledger s' :=
    fun h1 h2 h3 h4 h5 => ⟨h.books.frame hkin hst h1 h2, hrecords, h.hearings.frame hst h5 h1 h2 h3 h4⟩
  cases he with
  | stay => exact h
  | @move a p st hm =>
    exact hframe rfl rfl rfl rfl (sleepers_kept (moves_awaited hm) rfl (hall p rfl rfl))
  | insert hp hins =>
    exact ⟨insert_books h.books hkin hp (hg rfl) hins, hrecords, insert_hearings h hp hins⟩
  | @countUp p c hp =>
    have hnone : awaited (.forking (.counted c)) = none := rfl
    exact hframe rfl rfl rfl rfl (sleepers_kept hnone rfl (hall p rfl rfl))
  | @abandon p c hp =>
    exact hframe rfl rfl rfl rfl (sleepers_kept_two (awaited_home p) rfl rfl (hfreed c))
  | @load c hp => exact hframe rfl rfl rfl rfl (sleepers_kept_two rfl rfl rfl (hall c rfl rfl))
  | @launch p c hk hp => exact hframe rfl rfl rfl rfl (sleepers_kept_two rfl rfl rfl (hall c rfl rfl))
  | @record p c junk pcb hp hpcb =>
    refine hframe rfl rfl rfl rfl (sleepers_kept rfl rfl ?_)
    intro q hq
    exact ⟨update_of_ne hq _ _, Store.set_get hq _⟩
  | @unload p hp => exact hframe rfl rfl rfl rfl (sleepers_kept rfl rfl (hfreed p))
  | exit hex => exact ⟨exit_books h.books hkin hex, hrecords, exit_hearings h hst hex⟩
  | @destroy p hp => exact hframe rfl rfl rfl rfl (sleepers_kept rfl rfl (hfreed p))
  | @noProcess p k st hrun hk =>
    have hdead : ∀ c, s.known p k = some c → s.exits c ≠ none := fun c => refused_dead h (.inl hk)
    refine ⟨h.books.frame hkin hst rfl rfl, hrecords, refused_hearings h hrun (.inl rfl) hdead ?_⟩
    exact fun hv c hc => (hg hv rfl c hc).resolve_left (hdead c hc)
  | @noChild p k st i e pcb hask hfound =>
    have hdead : ∀ c, s.known p k = some c → s.exits c ≠ none :=
      fun c => refused_dead h (.inr ⟨pcb, hask.self, hfound⟩)
    refine ⟨h.books.frame hkin hst rfl rfl, hrecords, refused_hearings h hask.running (.inr rfl) hdead ?_⟩
    exact fun hv c hc => (hg hv rfl c hc).resolve_left (hdead c hc)
  | sleep hask hfound =>
    exact ⟨h.books.frame hkin hst rfl rfl, hrecords, sleep_hearings h hst hask hfound⟩
  | reap hask hfound hreap => exact absurd (no_reap h hask hfound hreap) id
  | wake hp hreap =>
    exact ⟨wake_books h hkin hst hp hreap, hrecords, wake_hearings h hst hp hreap⟩

theorem boot_ledger : Ledger boot := by
  have hcell : ∀ c, parentOf boot c = none := by
    intro c
    by_cases hc : c = 0
    · subst hc
      rfl
    · rw [parentOf, show boot.procs.cell c = _ from Store.alloc_cell hc]
      rfl
  refine ⟨⟨boot_kin, ?_, ?_, .inl ⟨rfl, rfl⟩⟩, ⟨?_, ?_, ?_, ?_, ?_, ?_, ?_⟩, ⟨?_, ?_, ?_, ?_⟩⟩
  · intro c q hq
    rw [hcell] at hq
    cases hq
  · intro c hk hc
    exact absurd (boot_stage hk) hc.1
  · intro p pcb hp
    obtain ⟨-, rfl⟩ := boot_get hp
    simp [occupied]
  · intro p f pcb hk _ hp
    exact absurd (boot_get hp).1 hk
  · intro p k c hc
    cases hc
  · intro p k c hc
    cases hc
  · intro p k c hc
    cases hc
  · intro p k c pcb hc
    cases hc
  · intro p pcb i c hp hi
    obtain ⟨-, rfl⟩ := boot_get hp
    cases hi
  · intro c _
    exact ⟨rfl, rfl⟩
  · intro p k e st hp
    by_cases hk : p = kproc
    · rw [hk] at hp
      cases hp
    · rw [boot_stage hk] at hp
      cases hp
  · intro p k e st hp
    by_cases hk : p = kproc
    · rw [hk] at hp
      cases hp
    · rw [boot_stage hk] at hp
      cases hp
  · intro c x xs hc
    cases hc

/-- A call that comes in time goes to sleep on the child's entry. -/
theorem ledger_asks (h : Ledger s) {p c : ℕ} {k : ℤ} (hrun : s.stage p = .running)
    (hc : s.known p k = some c) (hx : s.exits c = none) :
    ∃ e, waitpid p k .valid 0 s = .ok (s.setStage p (.waiting k e .valid)) := by
  obtain ⟨i, e, en, hown, hi⟩ := known_own h hc hx
  have hpos := (h.records.known p k c hc).2.2.2
  obtain ⟨pcb, hpcb⟩ := h.books.kin.get (by simp [hrun] : s.stage p ≠ .absent)
  have hat : entryAt k s = .ok (some e) := entryAt_ok.mpr ⟨i, hi, hown.slot⟩
  refine ⟨e, ?_⟩
  simp [waitpid, hrun, not_le.mpr hpos, hat, hpcb, known_found h hc hx hpcb, hown.entry, hown.termed]

theorem ledger_wakes (h : Ledger s) {p e : ℕ} {k : ℤ} (hp : s.stage p = .woken k e .valid) :
    ∃ c code t, s.known p k = some c ∧ s.exits c = some code ∧ wake p s = .ok t ∧
      t.stage p = .running ∧ told t c = told s c ++ [⟨.valid, .ok (k, some code)⟩] := by
  obtain ⟨i, en, -, -, hen, hterm, hc, hx, -⟩ := h.hearings.woken p k e _ hp
  obtain ⟨t, ht⟩ : ∃ t, wake p s = .ok t := by
    simp [wake, hp, reap, hen, hterm]
  obtain ⟨k', e', st', en', hp', hreap⟩ := wake_effect ht
  rw [hp] at hp'
  cases hp'
  have hsame : en' = en := Option.some.inj (hreap.entry.symm.trans hen)
  subst hsame
  refine ⟨en'.pcb, en'.exitcode, t, hc, hx, ht, by rw [hreap.stage, update_self], ?_⟩
  rw [told_returns hc hreap.calls]
  simp [reaped]

theorem ledger_waitsRight (h : Ledger s) : WaitsRight s := by
  refine ⟨fun p k c => ledger_asks h, ?_, fun p k e => ledger_wakes h, h.hearings.first⟩
  intro p k e st hp
  obtain ⟨i, c, j, pcb, en, -, -, -, hc, hal, -⟩ := asleep_own h (h.hearings.waiting p k e st hp)
  exact ⟨c, hc, hal, (h.hearings.living c (.inl hal)).1⟩

/-- In every run in which parents ask in time, over any number of processes and
in any interleaving, `sys_waitpid` keeps its promise. -/
theorem timely_run_waits (as : List Action) (t : System) (hg : Runs.Guarded step Timely as boot)
    (hr : run as boot = .ok t) : WaitsRight t := by
  have h : Ledger t := Runs.guarded_invariant
    (fun _ _ _ h hg hs => effect_ledger h hg (step_effect hs)) hg boot_ledger hr
  exact ledger_waitsRight h

/-- A parent waits for its child, is told the code, and asks once more. -/
def askedTwice : List Action :=
  started ++ forked 1 ++
    [.waitpid 1 1 .valid 0, .exit 2 5, .destroy 2, .wake 1, .waitpid 1 1 .valid 0]

theorem askedTwice_waits : ∃ t, run askedTwice boot = .ok t ∧
    told t 2 = [⟨.valid, .ok (1, some 5)⟩, ⟨.valid, .error .esrch⟩] ∧ WaitsRight t := by
  have hg : Runs.Guarded step Timely askedTwice boot := by decide +kernel
  have hr : ∃ t, run askedTwice boot = .ok t ∧
      told t 2 = [⟨.valid, .ok (1, some 5)⟩, ⟨.valid, .error .esrch⟩] := by
    decide +kernel
  obtain ⟨t, hr, htold⟩ := hr
  exact ⟨t, hr, htold, timely_run_waits askedTwice t hg hr⟩

/-- A child exits before its parent asks. -/
def askedLate : List Action := started ++ forked 1 ++ [.exit 2 5, .waitpid 1 1 .valid 0]

theorem askedLate_echild : ∃ t, run askedLate boot = .ok t ∧ t.known 1 1 = some 2 ∧
    t.exits 2 = some 5 ∧ told t 2 = [⟨.valid, .error .echild⟩] ∧ ¬WaitsRight t := by
  have hr : ∃ t, run askedLate boot = .ok t ∧ t.known 1 1 = some 2 ∧ t.exits 2 = some 5 ∧
      told t 2 = [⟨.valid, .error .echild⟩] := by
    decide +kernel
  obtain ⟨t, hr, hknown, hexit, htold⟩ := hr
  refine ⟨t, hr, hknown, hexit, htold, ?_⟩
  intro h
  obtain ⟨k, code, -, -, hres, -⟩ := h.first 2 _ _ htold
  cases hres

end OS161.WaitRuns
