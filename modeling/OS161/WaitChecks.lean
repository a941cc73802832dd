import OS161.WaitRuns

/-!
# The checks of waitpid

The pid that a process passes to `sys_waitpid` is any `int`. The call compares
it with zero and then takes it for an index into the table; nothing compares it
with the size of the table.
-/

set_option autoImplicit false

namespace OS161.WaitChecks

open Function OS161.Slots OS161.Vfs OS161.ProcessTable OS161.ProcessEffects OS161.ProcessKin
open OS161.PidLedger OS161.ChildLedger OS161.ExitWait

/-- `sys_waitpid` up to where it has found its child and goes on with an entry. -/
def waitpidChecks (p : ℕ) (target opts : ℤ) (s : System) : Except Stop (Except Errno ℕ) :=
  if opts ≠ 0 then .ok (.error .einval)
  else if target ≤ 0 then .ok (.error .esrch)
  else match entryAt target s with
    | .error e => .error e
    | .ok none => .ok (.error .esrch)
    | .ok (some e) =>
      match s.procs.get p with
      | none => .error .useAfterFree
      | some pcb =>
        match hasChild pcb.childs target s (List.finRange _) with
        | .error stop => .error stop
        | .ok false => .ok (.error .echild)
        | .ok true => .ok (.ok e)

/-- `target` names the child `c` of `p`. -/
def Names (p c : ℕ) (target : ℤ) (s : System) : Prop :=
  ∃ pcb i child, s.procs.get p = some pcb ∧ pcb.childs i = some c ∧ s.procs.get c = some child ∧
    child.pid = target

/-- What is asked of a call: it reads nothing outside the table and nothing that
has been freed, it refuses what it has to, and goes on with the entry of a child. -/
structure Answers (p : ℕ) (target opts : ℤ) (s : System) : Prop where
  returns : ∃ r, waitpidChecks p target opts s = .ok r
  einval : opts ≠ 0 → waitpidChecks p target opts s = .ok (.error .einval)
  refuses : opts = 0 → (∀ c, ¬Names p c target s) →
    waitpidChecks p target opts s = .ok (.error .esrch) ∨ waitpidChecks p target opts s = .ok (.error .echild)
  entry : ∀ e, waitpidChecks p target opts s = .ok (.ok e) →
    ∃ c en, Names p c target s ∧ entryAt target s = .ok (some e) ∧ s.entries.get e = some en ∧ en.pcb = c

/-- A child that has been destroyed is only reached behind one with this pid. -/
def Readable (childs : SlotArray MAX_CHILDS ℕ) (target : ℤ) (s : System) : Prop :=
  ∀ i c, childs i = some c → s.procs.get c = none →
    ∃ j < i, ∃ d child, childs j = some d ∧ s.procs.get d = some child ∧ child.pid = target

/-- If `target` names a child, the entry in that slot is a child's of this pid. -/
def Kept (p e : ℕ) (target : ℤ) (s : System) : Prop :=
  (∃ c, Names p c target s) → ∃ c en, Names p c target s ∧ s.entries.get e = some en ∧ en.pcb = c

variable {s : System} {p e : ℕ} {target opts : ℤ} {pcb : Proc}

theorem waitpid_checks {st : Status} (hrun : s.stage p = .running) : waitpid p target st opts s =
    match waitpidChecks p target opts s with
    | .error stop => .error stop
    | .ok (.error err) => .ok (if opts ≠ 0 then s else returns p target st (.error err) s)
    | .ok (.ok e) => match s.entries.get e with
      | none => .error .useAfterFree
      | some en => if en.termed then reap p target e st s else .ok (s.setStage p (.waiting target e st)) := by
  unfold waitpid waitpidChecks
  rw [hrun]
  by_cases ho : opts ≠ 0
  · simp [ho]
  by_cases hk : target ≤ 0
  · simp [ho, hk]
  cases hat : entryAt target s with
  | error stop => simp [ho, hk]
  | ok x =>
    cases x with
    | none => simp [ho, hk]
    | some e =>
      cases hp : s.procs.get p with
      | none => simp [ho, hk]
      | some pcb =>
        cases hc : hasChild pcb.childs target s (List.finRange _) with
        | error stop => simp [ho, hk, hc]
        | ok b =>
          cases b with
          | false => simp [ho, hk, hc]
          | true =>
            cases hg : s.entries.get e <;> simp [ho, hk, hc, hg]

theorem hasChild_readable {childs : SlotArray MAX_CHILDS ℕ} {is : List (Fin MAX_CHILDS)}
    (hsort : is.Pairwise (· < ·)) : (∃ b, hasChild childs target s is = .ok b) ↔
      ∀ i ∈ is, ∀ c, childs i = some c → s.procs.get c = none →
        ∃ j ∈ is, j < i ∧ ∃ d child, childs j = some d ∧ s.procs.get d = some child ∧ child.pid = target := by
  induction is with
  | nil => simp [hasChild]
  | cons i is ih =>
    obtain ⟨hlt, hsort⟩ := List.pairwise_cons.mp hsort
    rw [hasChild]
    cases hi : childs i with
    | none => simp [ih hsort, hi]
    | some c =>
      cases hc : s.procs.get c with
      | none =>
        simp only [hc, reduceCtorEq, exists_false, false_iff]
        intro hall
        obtain ⟨j, hj, hji, -⟩ := hall i List.mem_cons_self c hi hc
        rcases List.mem_cons.mp hj with rfl | hj
        · exact absurd hji (lt_irrefl j)
        · exact absurd hji (lt_asymm (hlt j hj))
      | some child =>
        by_cases hk : child.pid = target
        · simp only [hc, hk, if_true, Except.ok.injEq, exists_eq', true_iff]
          intro j hj d hd hfree
          rcases List.mem_cons.mp hj with rfl | hj
          · rw [hi, Option.some.injEq] at hd
            rw [← hd, hc] at hfree
            cases hfree
          · exact ⟨i, List.mem_cons_self, hlt j hj, c, child, hi, hc, hk⟩
        · simp only [hc, hk, if_false, ih hsort]
          constructor
          · intro hall j hj d hd hfree
            rcases List.mem_cons.mp hj with rfl | hj
            · rw [hi, Option.some.injEq] at hd
              rw [← hd, hc] at hfree
              cases hfree
            · obtain ⟨l, hl, hrest⟩ := hall j hj d hd hfree
              exact ⟨l, List.mem_cons_of_mem i hl, hrest⟩
          · intro hall j hj d hd hfree
            obtain ⟨l, hl, hlj, d', ch, hd', hch, hpid⟩ := hall j (List.mem_cons_of_mem i hj) d hd hfree
            rcases List.mem_cons.mp hl with rfl | hl
            · rw [hi, Option.some.injEq] at hd'
              rw [← hd', hc, Option.some.injEq] at hch
              exact absurd (hch ▸ hpid) hk
            · exact ⟨l, hl, hlj, d', ch, hd', hch, hpid⟩

theorem scan_readable : (∃ b, hasChild pcb.childs target s (List.finRange _) = .ok b) ↔
    Readable pcb.childs target s := by
  rw [hasChild_readable (List.pairwise_lt_finRange _)]
  simp [Readable]

theorem names_iff (hp : s.procs.get p = some pcb) {b : Bool}
    (hb : hasChild pcb.childs target s (List.finRange _) = .ok b) : (∃ c, Names p c target s) ↔ b = true := by
  cases b with
  | true =>
    obtain ⟨i, c, child, hi, hc, hk⟩ := hasChild_true hb
    exact iff_of_true ⟨c, pcb, i, child, hp, hi, hc, hk⟩ rfl
  | false =>
    simp only [Bool.false_eq_true, iff_false, not_exists]
    rintro c ⟨pcb', i, child, hp', hi, hc, hk⟩
    rw [hp, Option.some.injEq] at hp'
    subst hp'
    exact hasChild_false hb i (List.mem_finRange i) c child hi hc hk

theorem entryAt_inside : (∃ x, entryAt target s = .ok x) ↔ 0 ≤ target ∧ target < MAX_PROCS := by
  constructor
  · rintro ⟨x, hx⟩
    obtain ⟨i, hi, -⟩ := entryAt_ok.mp hx
    have := i.isLt
    omega
  · intro h
    exact ⟨_, dif_pos h⟩

/-- What the checks come to once the index is inside the table. -/
theorem checks_found (hopts : opts = 0) (hpos : 0 < target) (hp : s.procs.get p = some pcb)
    (hat : entryAt target s = .ok (some e)) : waitpidChecks p target opts s =
      match hasChild pcb.childs target s (List.finRange _) with
      | .error stop => .error stop
      | .ok false => .ok (.error .echild)
      | .ok true => .ok (.ok e) := by
  have hk : ¬target ≤ 0 := by omega
  simp only [waitpidChecks, hopts, ne_eq, not_true, hk, if_false, hat, hp]

theorem found_answers (hopts : opts = 0) (hpos : 0 < target) (hp : s.procs.get p = some pcb)
    (hat : entryAt target s = .ok (some e)) :
    Answers p target opts s ↔ Readable pcb.childs target s ∧ Kept p e target s := by
  have heq := checks_found hopts hpos hp hat
  rw [← scan_readable]
  constructor
  · intro h
    obtain ⟨r, hr⟩ := h.returns
    rw [hr] at heq
    have hb : ∃ b, hasChild pcb.childs target s (List.finRange _) = .ok b := by
      cases hc : hasChild pcb.childs target s (List.finRange _) with
      | error stop => simp [hc] at heq
      | ok b => exact ⟨b, rfl⟩
    obtain ⟨b, hb⟩ := hb
    refine ⟨⟨b, hb⟩, ?_⟩
    intro hnames
    rw [names_iff hp hb] at hnames
    subst hnames
    simp only [hb, Except.ok.injEq] at heq
    rw [heq] at hr
    obtain ⟨c, en, hc, -, hen, hpcb⟩ := h.entry e hr
    exact ⟨c, en, hc, hen, hpcb⟩
  · rintro ⟨⟨b, hb⟩, hkept⟩
    rw [hb] at heq
    have hnames := names_iff hp hb
    cases b with
    | false =>
      refine ⟨⟨_, heq⟩, fun ho => absurd hopts ho, fun _ _ => .inr heq, ?_⟩
      intro e' he'
      rw [heq] at he'
      cases he'
    | true =>
      refine ⟨⟨_, heq⟩, fun ho => absurd hopts ho, ?_, ?_⟩
      · intro _ hno
        obtain ⟨c, hc⟩ := hnames.mpr rfl
        exact absurd hc (hno c)
      · intro e' he'
        rw [heq] at he'
        cases he'
        obtain ⟨c, en, hc, hen, hpcb⟩ := hkept (hnames.mpr rfl)
        exact ⟨c, en, hc, hat, hen, hpcb⟩

/-- A refusal before the children are looked at. -/
theorem refused_answers {err : Errno} (hopts : opts = 0)
    (hr : waitpidChecks p target opts s = .ok (.error err)) (herr : err = .esrch) :
    Answers p target opts s := by
  subst herr
  refine ⟨⟨_, hr⟩, fun ho => absurd hopts ho, fun _ _ => .inl hr, ?_⟩
  intro e he
  rw [hr] at he
  cases he

/-- In any state, `sys_waitpid` does what it is to do for any `int` passed as pid
exactly if the pid is no index outside the table, nothing the scan of the
children reads has been freed, and the table has that child's entry. -/
theorem sysWaitpid_answers_iff (hp : s.procs.get p = some pcb) : Answers p target opts s ↔
    opts ≠ 0 ∨ target ≤ 0 ∨ target < MAX_PROCS ∧
      ∀ e, entryAt target s = .ok (some e) → Readable pcb.childs target s ∧ Kept p e target s := by
  by_cases ho : opts = 0
  swap
  · have hr : waitpidChecks p target opts s = .ok (.error .einval) := by simp [waitpidChecks, ho]
    refine iff_of_true ⟨⟨_, hr⟩, fun _ => hr, fun h => absurd h ho, ?_⟩ (.inl ho)
    intro e he
    rw [hr] at he
    cases he
  by_cases hk : target ≤ 0
  · exact iff_of_true (refused_answers ho (by simp [waitpidChecks, ho, hk]) rfl) (.inr (.inl hk))
  have hpos : 0 < target := by omega
  by_cases hlt : target < MAX_PROCS
  · obtain ⟨x, hat⟩ : ∃ x, entryAt target s = .ok x := entryAt_inside.mpr ⟨hpos.le, hlt⟩
    cases x with
    | none =>
      refine iff_of_true (refused_answers ho (by simp [waitpidChecks, ho, hk, hat]) rfl) (.inr (.inr ⟨hlt, ?_⟩))
      intro e he
      rw [hat] at he
      cases he
    | some e =>
      rw [found_answers ho hpos hp hat]
      constructor
      · intro h
        refine .inr (.inr ⟨hlt, ?_⟩)
        intro e' he'
        rw [hat] at he'
        cases he'
        exact h
      · rintro (h | h | h)
        · exact absurd ho h
        · exact absurd h hk
        · exact h.2 e hat
  · refine iff_of_false ?_ ?_
    · rintro ⟨⟨r, hr⟩, -, -, -⟩
      have hat : entryAt target s = .error .outOfBounds := by
        unfold entryAt
        rw [dif_neg (fun h => hlt h.2)]
      simp [waitpidChecks, ho, hk, hat] at hr
    · rintro (h | h | h)
      · exact h ho
      · exact hk h
      · exact hlt h.1

/-- Nothing the scan reads has been freed and the table has the children's
entries where processes are entered only in free slots and exit only when their
parents have recorded them. -/
theorem ledger_kept (h : Ledger s) (hp : s.procs.get p = some pcb) (hat : entryAt target s = .ok (some e)) :
    Readable pcb.childs target s ∧ Kept p e target s := by
  constructor
  · intro i c hc hnone
    obtain ⟨child, hchild⟩ := h.books.kin.get (h.books.kin.childs p pcb i c hp hc).1.1
    rw [hchild] at hnone
    cases hnone
  · rintro ⟨c, pcb', i, child, hp', hi, hc, hk⟩
    obtain ⟨hal, hpar, -⟩ := h.books.kin.childs p pcb' i c hp' hi
    obtain ⟨j, e', en, hown⟩ := h.books.own_child hpar hal
    have hpid : pidOf s c = some target := by
      rw [pidOf, (Store.get_some.mp hc).2, ← hk]
      rfl
    obtain ⟨l, hl, hslot⟩ := entryAt_ok.mp hat
    have hjl : l = j := own_pid hown (by rw [hpid, ← hl])
    subst hjl
    have hee : e' = e := Option.some.inj (hown.slot.symm.trans hslot)
    subst hee
    exact ⟨c, en, ⟨pcb', i, child, hp', hi, hc, hk⟩, hown.entry, hown.pcb⟩

/-- There the bound on the index is all that is missing. -/
theorem ledger_answers_iff (h : Ledger s) (hp : s.procs.get p = some pcb) :
    Answers p target opts s ↔ opts ≠ 0 ∨ target < MAX_PROCS := by
  rw [sysWaitpid_answers_iff hp]
  constructor
  · rintro (ho | hk | hlt)
    · exact .inl ho
    · exact .inr (lt_of_le_of_lt hk (by decide))
    · exact .inr hlt.1
  · rintro (ho | hlt)
    · exact .inl ho
    · exact .inr (.inr ⟨hlt, fun e hat => ledger_kept h hp hat⟩)

/-- The first program has a child with pid 1 and asks for it. -/
theorem firstChild_answers : ∃ t, run (started ++ forked 1) boot = .ok t ∧ Answers 1 1 0 t := by
  have hg : Runs.Guarded step Timely (started ++ forked 1) boot := by decide +kernel
  have hr : ∃ t, run (started ++ forked 1) boot = .ok t ∧ (t.procs.get 1).isSome := by decide +kernel
  obtain ⟨t, hr, hsome⟩ := hr
  obtain ⟨pcb, hp⟩ := Option.isSome_iff_exists.mp hsome
  have h : Ledger t := Runs.guarded_invariant
    (fun _ _ _ h hg hs => WaitRuns.effect_ledger h hg (ProcessSteps.step_effect hs)) hg WaitRuns.boot_ledger hr
  exact ⟨t, hr, (sysWaitpid_answers_iff hp).mpr (.inr (.inr ⟨by decide, fun e hat => ledger_kept h hp hat⟩))⟩

/-- It asks for the smallest pid outside the table. -/
theorem outside_reads : ∃ t, run (started ++ forked 1) boot = .ok t ∧
    waitpid 1 128 .null 0 t = .error .outOfBounds ∧ ¬Answers 1 128 0 t := by
  have hr : ∃ t, run (started ++ forked 1) boot = .ok t ∧ t.stage 1 = .running := by decide +kernel
  obtain ⟨t, hr, hrun⟩ := hr
  have hout : waitpidChecks 1 128 0 t = .error .outOfBounds := rfl
  refine ⟨t, hr, by rw [waitpid_checks hrun, hout], ?_⟩
  intro h
  obtain ⟨r, hr⟩ := h.returns
  rw [hout] at hr
  cases hr

end OS161.WaitChecks
