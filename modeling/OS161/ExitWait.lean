import OS161.ChildLedger
import OS161.ProcessEntries

/-!
# Handing over the exit code

A parent that waits before its child exits gets the child's exit code, once.
A child that exits first takes itself out of its parent's array, and its code
is lost: `sys_waitpid` answers that there is no such child.
-/

set_option autoImplicit false

namespace OS161.ExitWait

open Function OS161.Slots OS161.Vfs OS161.ProcessTable OS161.ProcessEffects OS161.ProcessSteps
open OS161.ProcessKin OS161.KinSteps OS161.ProcessEntries OS161.PidLedger OS161.ChildLedger

/-- The finished calls on a child that came with a valid status pointer. -/
def told (s : System) (c : ℕ) : List Call := (s.calls c).filter (fun x => x.status = .valid)

/-- The condition on a step: a process is entered only when a slot is free, a
child exits only when its parent has recorded it, and a parent asks for a
child's code before the child has exited, or after it has been told. -/
def Timely : Action → System → Prop
  | .insert _ mem _, s => mem = true → firstFree s.table ≠ none
  | .exit p code, s => Recorded (.exit p code) s
  | .waitpid p k st opts, s =>
    st = .valid → opts = 0 → ∀ c ∈ s.known p k, s.exits c = none ∨ told s c ≠ []
  | _, _ => True

instance (a : Action) (s : System) : Decidable (Timely a s) := by
  induction a using ProcessTable.Action.casesOn
  case insert _ mem _ => exact inferInstanceAs (Decidable (mem = true → firstFree s.table ≠ none))
  case exit p code => exact inferInstanceAs (Decidable (Recorded (.exit p code) s))
  case waitpid p k st opts =>
    exact inferInstanceAs
      (Decidable (st = .valid → opts = 0 → ∀ c ∈ s.known p k, s.exits c = none ∨ told s c ≠ []))
  all_goals exact isTrue trivial

/-- What `sys_waitpid` promises: a call on a child that has not exited goes to
sleep, a sleeper's child has not exited, a sleeper that has been woken gets the
code, and of the calls with a valid pointer exactly the first succeeds. -/
structure WaitsRight (s : System) : Prop where
  asks : ∀ p k c, s.stage p = .running → s.known p k = some c → s.exits c = none →
    ∃ e, waitpid p k .valid 0 s = .ok (s.setStage p (.waiting k e .valid))
  sleeps : ∀ p k e st, s.stage p = .waiting k e st →
    ∃ c, s.known p k = some c ∧ alive (s.stage c) ∧ s.exits c = none
  wakes : ∀ p k e, s.stage p = .woken k e .valid →
    ∃ c code t, s.known p k = some c ∧ s.exits c = some code ∧ wake p s = .ok t ∧
      t.stage p = .running ∧ told t c = told s c ++ [⟨.valid, .ok (k, some code)⟩]
  first : ∀ c x xs, told s c = x::xs → ∃ k code, pidOf s c = some k ∧ s.exits c = some code ∧
    x.result = .ok (k, some code) ∧ ∀ y ∈ xs, y.result = .error .esrch ∨ y.result = .error .echild

/-- A sleeper, and the child it waits for. -/
def Asleep (s : System) (p : ℕ) (k : ℤ) (e : ℕ) : Prop :=
  ∃ (i : Fin MAX_PROCS) (c : ℕ) (j : Fin MAX_CHILDS) (pcb : Proc), (i.val : ℤ) = k ∧
    s.table i = some e ∧ s.procs.get p = some pcb ∧ pcb.childs j = some c ∧ pidOf s c = some k

/-- A sleeper that has been woken, and the child that has exited. -/
def Ready (s : System) (p : ℕ) (k : ℤ) (e : ℕ) : Prop :=
  ∃ (i : Fin MAX_PROCS) (en : Entry), (i.val : ℤ) = k ∧ s.table i = some e ∧
    s.entries.get e = some en ∧ en.termed = true ∧ s.known p k = some en.pcb ∧
    s.exits en.pcb = some en.exitcode ∧ s.calls en.pcb = []

structure Hearings (s : System) : Prop where
  living : ∀ c, alive (s.stage c) ∨ s.procs.next ≤ c → s.exits c = none ∧ s.calls c = []
  waiting : ∀ p k e st, s.stage p = .waiting k e st → Asleep s p k e
  woken : ∀ p k e st, s.stage p = .woken k e st → Ready s p k e
  first : ∀ c x xs, told s c = x::xs → ∃ k code, pidOf s c = some k ∧ s.exits c = some code ∧
    x.result = .ok (k, some code) ∧ ∀ y ∈ xs, y.result = .error .esrch ∨ y.result = .error .echild

structure Ledger (s : System) : Prop where
  books : Books s
  records : Records s
  hearings : Hearings s

variable {s s' : System}

theorem wakeOn_waiting {st : Stage} {cur e : ℕ} {k : ℤ} {t : Status}
    (h : st.wakeOn cur = .waiting k e t) : st = .waiting k e t ∧ e ≠ cur := by
  cases st with
  | waiting k' e' t' =>
    by_cases he : e' = cur
    · simp [Stage.wakeOn, he] at h
    · simp only [Stage.wakeOn, he, if_false] at h
      cases h
      exact ⟨rfl, he⟩
  | _ => cases h

/-- Nothing changes that a sleeper depends on. -/
theorem Hearings.frame (h : Hearings s) (hst : Steady s s')
    (hstage : ∀ p, awaited (s'.stage p) ≠ none → s'.stage p = s.stage p ∧
      s'.known p = s.known p ∧ s'.procs.get p = s.procs.get p)
    (hentries : s'.entries = s.entries) (htable : s'.table = s.table)
    (hexits : s'.exits = s.exits) (hcalls : s'.calls = s.calls) : Hearings s' := by
  constructor
  · intro c hc
    rw [hexits, hcalls]
    rw [hst.next] at hc
    rcases hc with hal | hge
    · exact h.living c (.inl (hst.alive c hal))
    · exact h.living c (.inr hge)
  · intro p k e st hp
    obtain ⟨hsame, -, hget⟩ := hstage p (by simp [hp, awaited])
    rw [hsame] at hp
    obtain ⟨i, c, j, pcb, hi, hslot, hpcb, hc, hpid⟩ := h.waiting p k e st hp
    exact ⟨i, c, j, pcb, hi, by rw [htable, hslot], by rw [hget, hpcb], hc, by rw [hst.pid, hpid]⟩
  · intro p k e st hp
    obtain ⟨hsame, hknown, -⟩ := hstage p (by simp [hp, awaited])
    rw [hsame] at hp
    obtain ⟨i, en, hi, hslot, hen, hterm, hc, hx, hno⟩ := h.woken p k e st hp
    exact ⟨i, en, hi, by rw [htable, hslot], by rw [hentries, hen], hterm, by rw [hknown, hc],
      by rw [hexits, hx], by rw [hcalls, hno]⟩
  · intro c x xs hc
    rw [told, hcalls] at hc
    rw [hst.pid, hexits]
    exact h.first c x xs hc

/-- A process that has not exited, and that its parent knows of, has its slot. -/
theorem known_own (h : Ledger s) {p c : ℕ} {k : ℤ} (hc : s.known p k = some c)
    (hx : s.exits c = none) : ∃ i e en, Own s c i e en ∧ (i.val : ℤ) = k := by
  obtain ⟨-, hpar, hpid, -⟩ := h.records.known p k c hc
  obtain ⟨i, e, en, hown⟩ := h.books.own_child hpar (h.records.present p k c hc hx)
  exact ⟨i, e, en, hown, Option.some.inj (hown.pid.symm.trans hpid)⟩

/-- The call of a parent on a child that has not exited finds the child. -/
theorem known_found (h : Ledger s) {p c : ℕ} {k : ℤ} {pcb : Proc} (hc : s.known p k = some c)
    (hx : s.exits c = none) (hpcb : s.procs.get p = some pcb) :
    hasChild pcb.childs k s (List.finRange _) = .ok true := by
  have hlive : ∀ j d, pcb.childs j = some d → ∃ child, s.procs.get d = some child := by
    intro j d hd
    exact h.books.kin.get (h.books.kin.childs p pcb j d hpcb hd).1.1
  obtain ⟨b, hb⟩ : ∃ b, hasChild pcb.childs k s (List.finRange _) = .ok b := hasChild_safe hlive
  cases b with
  | true => exact hb
  | false =>
    obtain ⟨j, hj⟩ := h.records.kept p k c pcb hc hx hpcb
    obtain ⟨child, hchild⟩ := hlive j c hj
    have hpid := (h.records.known p k c hc).2.2.1
    rw [pidOf, (Store.get_some.mp hchild).2] at hpid
    exact absurd (Option.some.inj hpid) (hasChild_false hb j (List.mem_finRange j) c child hj hchild)

/-- What the end of a scan for the child says about the table. -/
theorem found_own (h : Ledger s) {p e : ℕ} {k : ℤ} {i : Fin MAX_PROCS} {pcb : Proc}
    (hask : Asking p k i e pcb s) (hfound : hasChild pcb.childs k s (List.finRange _) = .ok true) :
    ∃ j c en, pcb.childs j = some c ∧ pidOf s c = some k ∧ Own s c i e en := by
  obtain ⟨j, c, child, hj, hchild, hpid⟩ := hasChild_true hfound
  obtain ⟨hal, hpar, -⟩ := h.books.kin.childs p pcb j c hask.self hj
  obtain ⟨i', e', en, hown⟩ := h.books.own_child hpar hal
  have hpidc : pidOf s c = some k := by
    rw [pidOf, (Store.get_some.mp hchild).2, ← hpid]
    rfl
  have hii : i = i' := own_pid hown (by rw [hpidc, hask.pid])
  subst hii
  have hee : e = e' := Option.some.inj (hask.slot.symm.trans hown.slot)
  subst hee
  exact ⟨j, c, en, hj, hpidc, hown⟩

/-- A sleeper's child has not exited, and the sleeper sleeps on its entry. -/
theorem asleep_own (h : Ledger s) {p e : ℕ} {k : ℤ} (hp : Asleep s p k e) :
    ∃ i c j pcb en, (i.val : ℤ) = k ∧ s.procs.get p = some pcb ∧ pcb.childs j = some c ∧
      s.known p k = some c ∧ alive (s.stage c) ∧ Own s c i e en := by
  obtain ⟨i, c, j, pcb, hi, hslot, hpcb, hj, hpid⟩ := hp
  obtain ⟨hal, hpar, -⟩ := h.books.kin.childs p pcb j c hpcb hj
  obtain ⟨i', e', en, hown⟩ := h.books.own_child hpar hal
  have hii : i = i' := own_pid hown (by rw [hpid, hi])
  subst hii
  have hee : e = e' := Option.some.inj (hslot.symm.trans hown.slot)
  subst hee
  obtain ⟨l, hl⟩ := h.records.named p pcb j c hpcb hj
  have hlk : l = k := Option.some.inj ((h.records.known p l c hl).2.2.1.symm.trans hpid)
  exact ⟨i, c, j, pcb, en, hi, hpcb, hj, hlk ▸ hl, hal, hown⟩

theorem insert_hearings {p : ℕ} {k : ℤ} (h : Ledger s)
    (hp : s.stage p = .forking .admitted) (hins : Inserting p k s s') : Hearings s' := by
  have hplt := h.books.kin.lt (by simp [hp] : s.stage p ≠ .absent)
  have hpid : ∀ c l, pidOf s c = some l → pidOf s' c = some l := by
    intro c l hc
    have hcn : c ≠ s.procs.next := by
      rintro rfl
      rw [pidOf, s.procs.cell_fresh _ le_rfl] at hc
      cases hc
    rw [inserted_pid hins hcn, hc]
  have hstage : ∀ q, awaited (s'.stage q) ≠ none → s'.stage q = s.stage q := by
    intro q hq
    by_cases hqp : q = p
    · rw [hqp, hins.stage_self] at hq
      exact absurd rfl hq
    · by_cases hqn : q = s.procs.next
      · rw [hqn, hins.stage_new hplt] at hq
        exact absurd rfl hq
      · exact hins.stage_ne hqp hqn
  constructor
  · intro c hc
    rw [hins.exits, hins.calls]
    by_cases hcn : s.procs.next ≤ c
    · exact h.hearings.living c (.inr hcn)
    · rcases hc with hal | hge
      · exact h.hearings.living c (.inl ((inserted_alive hins hp (by omega)).mp hal))
      · rw [hins.procs, Store.alloc_next] at hge
        omega
  · intro q l e st hq
    rw [hstage q (by simp [hq, awaited])] at hq
    obtain ⟨i, c, j, pcb, hi, hslot, hpcb, hc, hcpid⟩ := h.hearings.waiting q l e st hq
    exact ⟨i, c, j, pcb, hi, hins.keep hslot, hins.pcb hpcb, hc, hpid c l hcpid⟩
  · intro q l e st hq
    rw [hstage q (by simp [hq, awaited])] at hq
    obtain ⟨i, en, hi, hslot, hen, hterm, hc, hx, hno⟩ := h.hearings.woken q l e st hq
    exact ⟨i, en, hi, hins.keep hslot, hins.entry hen, hterm, by rw [hins.known, hc],
      by rw [hins.exits, hx], by rw [hins.calls, hno]⟩
  · intro c x xs hc
    rw [told, hins.calls] at hc
    obtain ⟨l, code, hl, hx, hres⟩ := h.hearings.first c x xs hc
    exact ⟨l, code, hpid c l hl, by rw [hins.exits, hx], hres⟩

theorem exit_hearings {p : ℕ} {code : ℤ} {pcb : Proc} {i : Fin MAX_PROCS} {cur : ℕ} {en : Entry} {q : ℕ}
    {par : Proc} (h : Ledger s) (hst : Steady s s') (hex : Exiting p code pcb i cur en q par s s') :
    Hearings s' := by
  have hown := exit_own h.books hex
  obtain ⟨hcur, htable⟩ := exit_table h.books hex
  have hself := h.hearings.living p (.inl (by simp [hex.running, alive]))
  have hplt := h.books.kin.lt (by simp [hex.running] : s.stage p ≠ .absent)
  have hkeep : ∀ j e, e ≠ cur → s.table j = some e → s'.table j = some e := by
    intro j e he hj
    have hji : j ≠ i := by
      rintro rfl
      rw [hown.slot] at hj
      exact he (Option.some.inj hj).symm
    rw [exit_keep h.books hex hji, hj]
  have hexits : ∀ c, c ≠ p → s'.exits c = s.exits c := by
    intro c hc
    rw [hex.exits, update_of_ne hc]
  have hstage : ∀ r, r ≠ p → s'.stage r = (s.stage r).wakeOn cur := by
    intro r hr
    rw [hex.stage, update_of_ne hr]
  have hneq : ∀ r, awaited (s'.stage r) ≠ none → r ≠ p := by
    rintro r hr rfl
    rw [hex.stage, update_self] at hr
    exact hr rfl
  constructor
  · intro c hc
    rw [hex.calls]
    have hold : c ≠ p ∧ (alive (s.stage c) ∨ s.procs.next ≤ c) := by
      rcases hc with hal | hge
      · obtain ⟨hcp, hal'⟩ := exit_dead hex hal
        exact ⟨hcp, .inl hal'⟩
      · rw [hst.next] at hge
        exact ⟨by omega, .inr hge⟩
    rw [hexits c hold.1]
    exact h.hearings.living c hold.2
  · -- who still sleeps does so on another entry
    intro r k e st hr
    have hrp := hneq r (by simp [hr, awaited])
    rw [hstage r hrp] at hr
    obtain ⟨hold, hec⟩ := wakeOn_waiting hr
    obtain ⟨j, c, l, x, fn, hj, hx, hl, -, -, hownc⟩ := asleep_own h (h.hearings.waiting r k e st hold)
    have hcp : c ≠ p := by
      rintro rfl
      exact hec (own_entry hownc hown)
    obtain ⟨y, hy, hkids⟩ := unlinked_keep (p := p) hex.parentLive hx
    exact ⟨j, c, l, y, hj, hkeep j e hec hownc.slot, by rw [hex.procs, hy], hkids l c hcp hl,
      by rw [hst.pid, hownc.pid, hj]⟩
  · intro r k e st hr
    have hrp := hneq r (by simp [hr, awaited])
    rw [hstage r hrp] at hr
    rcases wakeOn_cases cur (s.stage r) with hsame | ⟨k', t, hw, hw'⟩
    · -- woken before
      rw [hsame] at hr
      obtain ⟨j, fn, hj, hslot, hfn, hterm, hc, hx, hno⟩ := h.hearings.woken r k e st hr
      have hec : e ≠ cur := by
        rintro rfl
        rw [hown.entry] at hfn
        cases hfn
        rw [hown.termed] at hterm
        cases hterm
      obtain ⟨b, hb, -⟩ := hex.others e fn hec hfn
      have hcp : fn.pcb ≠ p := by
        intro he
        rw [he, hself.1] at hx
        cases hx
      exact ⟨j, _, hj, hkeep j e hec hslot, hb, hterm, by rw [hex.known, hc], by rw [hexits _ hcp, hx],
        by rw [hex.calls, hno]⟩
    · -- woken now: the parent is alive, so the slot is not cleared
      rw [hw'] at hr
      cases hr
      obtain ⟨j, c, l, x, fn, hj, hx, hl, hc, hal, hownc⟩ := asleep_own h (h.hearings.waiting r _ _ _ hw)
      have hcp : c = p := own_process hownc hown
      subst hcp
      have hji : j = i := own_pid hown hownc.pid
      subst hji
      have hfalse : en.pTermed = false := by
        by_contra hpt
        have hpar := (h.books.kin.childs r x l c hx hl).2.1
        exact hown.orphan (by simpa using hpt) r hpar (by simp [hw, alive])
      refine ⟨j, ⟨c, true, en.pTermed, code⟩, hj, ?_, hcur, rfl, by rw [hex.known, hc], ?_, ?_⟩
      · rw [htable, hfalse]
        exact hown.slot
      · rw [hex.exits, update_self]
      · rw [hex.calls]
        exact hself.2
  · intro c x xs hc
    rw [told, hex.calls] at hc
    obtain ⟨k, code', hk, hx, hres⟩ := h.hearings.first c x xs hc
    have hcp : c ≠ p := by
      rintro rfl
      rw [hself.1] at hx
      cases hx
    exact ⟨k, code', by rw [hst.pid, hk], by rw [hexits c hcp, hx], hres⟩

theorem sleep_hearings {p e : ℕ} {k : ℤ} {st : Status} {i : Fin MAX_PROCS} {pcb : Proc} (h : Ledger s)
    (hst : Steady s (s.setStage p (.waiting k e st))) (hask : Asking p k i e pcb s)
    (hfound : hasChild pcb.childs k s (List.finRange _) = .ok true) :
    Hearings (s.setStage p (.waiting k e st)) := by
  obtain ⟨j, c, en, hj, hpid, hown⟩ := found_own h hask hfound
  constructor
  · intro d hd
    rcases hd with hal | hge
    · exact h.hearings.living d (.inl (hst.alive d hal))
    · exact h.hearings.living d (.inr hge)
  · intro q l f t hq
    by_cases hqp : q = p
    · simp only [System.setStage, hqp, update_self] at hq
      cases hq
      rw [hqp]
      exact ⟨i, c, j, pcb, hask.pid, hask.slot, hask.self, hj, hpid⟩
    · simp only [System.setStage, update_of_ne hqp] at hq
      exact h.hearings.waiting q l f t hq
  · intro q l f t hq
    have hqp : q ≠ p := by
      rintro rfl
      simp [System.setStage] at hq
    simp only [System.setStage, update_of_ne hqp] at hq
    exact h.hearings.woken q l f t hq
  · intro d x xs hd
    exact h.hearings.first d x xs hd

theorem returns_calls {p c : ℕ} {k : ℤ} {st : Status} {r : Except Errno (ℤ × Option ℤ)}
    (hc : s.known p k = some c) :
    (returns p k st r s).calls = update s.calls c (s.calls c ++ [⟨st, r⟩]) := by
  simp [returns, hc]

/-- One child's calls grow by one. -/
theorem told_returns {p c d : ℕ} {k : ℤ} {st : Status} {r : Except Errno (ℤ × Option ℤ)}
    (hc : s.known p k = some c) (hcalls : s'.calls = (returns p k st r s).calls) :
    told s' d = if d = c ∧ st = .valid then told s d ++ [⟨st, r⟩] else told s d := by
  rw [told, hcalls, returns_calls hc]
  by_cases hdc : d = c
  · subst hdc
    rw [update_self, List.filter_append]
    by_cases hv : st = .valid
    · simp [hv, told]
    · simp [hv, told]
  · simp [hdc, told]

/-- The parent of a child that has exited calls and is refused. -/
theorem refused_hearings {p : ℕ} {k : ℤ} {st : Status} {err : Errno} (h : Ledger s)
    (hrun : s.stage p = .running) (herr : err = .esrch ∨ err = .echild)
    (hdead : ∀ c, s.known p k = some c → s.exits c ≠ none)
    (htime : st = .valid → ∀ c, s.known p k = some c → told s c ≠ []) :
    Hearings (returns p k st (.error err) s) := by
  cases hk : s.known p k with
  | none =>
    have hsame : returns p k st (.error err) s = s := by simp [returns, hk]
    rw [hsame]
    exact h.hearings
  | some c =>
    have hcalls : ∀ d, d ≠ c → (returns p k st (.error err) s).calls d = s.calls d := by
      intro d hd
      rw [returns_calls hk, update_of_ne hd]
    constructor
    · intro d hd
      have hold := h.hearings.living d hd
      have hdc : d ≠ c := by
        rintro rfl
        exact hdead d hk hold.1
      rw [hcalls d hdc]
      exact hold
    · exact h.hearings.waiting
    · intro q l e t hq
      obtain ⟨i, en, hi, hslot, hen, hterm, hc, hx, hno⟩ := h.hearings.woken q l e t hq
      have hne : en.pcb ≠ c := by
        intro he
        have hpar := (h.records.known q l en.pcb hc).2.1
        rw [he, (h.records.known p k c hk).2.1] at hpar
        cases hpar
        rw [show s.stage p = _ from hq] at hrun
        cases hrun
      exact ⟨i, en, hi, hslot, hen, hterm, hc, hx, by rw [hcalls _ hne, hno]⟩
    · intro d x xs hd
      rw [told_returns hk rfl] at hd
      split at hd
      · next hv =>
        obtain ⟨rfl, hv⟩ := hv
        cases hold : told s d with
        | nil => exact absurd hold (htime hv d hk)
        | cons y ys =>
          rw [hold] at hd
          cases hd
          obtain ⟨l, code, hl, hx, hres, hlater⟩ := h.hearings.first d _ ys hold
          refine ⟨l, code, hl, hx, hres, ?_⟩
          intro z hz
          rcases List.mem_append.mp hz with hz | hz
          · exact hlater z hz
          · rw [List.mem_singleton.mp hz]
            rcases herr with rfl | rfl
            · exact .inl rfl
            · exact .inr rfl
      · exact h.hearings.first d x xs hd

/-- A woken parent is told its child's code. -/
theorem wake_hearings {p e : ℕ} {k : ℤ} {st : Status} {en : Entry} (h : Ledger s) (hst : Steady s s')
    (hp : s.stage p = .woken k e st) (hreap : Reaping p k e st en s s') : Hearings s' := by
  obtain ⟨i, fn, hi, hslot, hfn, hterm, hc, hx, hno⟩ := h.hearings.woken p k e st hp
  have hen : en = fn := Option.some.inj (hreap.entry.symm.trans hfn)
  subst hen
  have hkeep : ∀ j f, f ≠ e → s.table j = some f → s'.table j = some f := by
    intro j f hf hj
    have hji : j ≠ i := by
      rintro rfl
      rw [hslot] at hj
      exact hf (Option.some.inj hj).symm
    rw [hreap.table, ← hi, clearAt_val]
    split
    · exact hj
    · rw [update_of_ne hji, hj]
  have hstage : ∀ q, awaited (s'.stage q) ≠ none → q ≠ p ∧ s'.stage q = s.stage q := by
    intro q hq
    rw [hreap.stage] at hq ⊢
    by_cases hqp : q = p
    · rw [hqp, update_self] at hq
      exact absurd rfl hq
    · exact ⟨hqp, update_of_ne hqp _ _⟩
  have hcalls : ∀ d, d ≠ en.pcb → s'.calls d = s.calls d := by
    intro d hd
    rw [hreap.calls, returns_calls hc, update_of_ne hd]
  constructor
  · intro d hd
    rw [hst.next] at hd
    have hold := h.hearings.living d (hd.imp_left (hst.alive d))
    have hdc : d ≠ en.pcb := by
      rintro rfl
      rw [hold.1] at hx
      cases hx
    rw [hreap.exits, hcalls d hdc]
    exact hold
  · intro q l f t hq
    obtain ⟨-, hsame⟩ := hstage q (by simp [hq, awaited])
    rw [hsame] at hq
    obtain ⟨j, c, b, pcb, fn, hj, hpcb, hb, -, -, hown⟩ := asleep_own h (h.hearings.waiting q l f t hq)
    have hfe : f ≠ e := by
      rintro rfl
      have hentry := hown.entry
      rw [hfn] at hentry
      cases hentry
      rw [hown.termed] at hterm
      cases hterm
    exact ⟨j, c, b, pcb, hj, hkeep j f hfe hown.slot, by rw [hreap.procs, hpcb], hb,
      by rw [hst.pid, hown.pid, hj]⟩
  · intro q l f t hq
    obtain ⟨hqp, hsame⟩ := hstage q (by simp [hq, awaited])
    rw [hsame] at hq
    obtain ⟨j, gn, hj, hslot', hgn, hterm', hc', hx', hno'⟩ := h.hearings.woken q l f t hq
    have hne : gn.pcb ≠ en.pcb := by
      intro he
      have hpar := (h.records.known q l gn.pcb hc').2.1
      rw [he, (h.records.known p k en.pcb hc).2.1] at hpar
      exact hqp (Option.some.inj hpar).symm
    have hfe : f ≠ e := by
      rintro rfl
      rw [hfn] at hgn
      cases hgn
      exact hne rfl
    exact ⟨j, gn, hj, hkeep j f hfe hslot', by rw [hreap.entries, hgn], hterm', by rw [hreap.known, hc'],
      by rw [hreap.exits, hx'], by rw [hcalls _ hne, hno']⟩
  · intro d x xs hd
    rw [told_returns hc hreap.calls] at hd
    rw [hst.pid, hreap.exits]
    split at hd
    · next hv =>
      obtain ⟨rfl, rfl⟩ := hv
      simp only [told, hno, List.filter_nil, List.nil_append] at hd
      cases hd
      exact ⟨k, en.exitcode, (h.records.known p k _ hc).2.2.1, hx, rfl, by simp⟩
    · exact h.hearings.first d x xs hd

end OS161.ExitWait
