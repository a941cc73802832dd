import OS161.ProcessKin

/-!
# Every step keeps the families straight

The one action that has to be held back is the exit of a child that its
parent has not recorded yet.
-/

set_option autoImplicit false

namespace OS161.KinSteps

open Function OS161.Slots OS161.Vfs OS161.ProcessTable OS161.ProcessEffects OS161.ProcessSteps
open OS161.ProcessKin

/-- A process exits only when the fork that created it has recorded it. -/
def Recorded : Action → System → Prop
  | .exit p _, s => ∀ q : Fin s.procs.next, s.stage q ≠ .forking (.started p)
  | _, _ => True

instance (a : Action) (s : System) : Decidable (Recorded a s) := by
  induction a using ProcessTable.Action.casesOn
  case exit p code => exact inferInstanceAs (Decidable (∀ q : Fin s.procs.next, s.stage q ≠ .forking (.started p)))
  all_goals exact isTrue trivial

variable {s s' : System}

theorem kin_wakeAll (h : Kin s) (e : ℕ) (hprocs : s'.procs = s.procs)
    (hstage : s'.stage = fun q => (s.stage q).wakeOn e) : Kin s' := by
  have hpar : ∀ c, parentOf s' c = parentOf s c := by
    intro c
    simp [parentOf, hprocs]
  -- a waiter stays alive and creates no one, whether it is woken or not
  have hsame : ∀ q, s'.stage q = s.stage q ∨
      (∃ k t, s.stage q = .waiting k e t) ∧ ∃ k t, s'.stage q = .woken k e t := by
    intro q
    rw [hstage]
    rcases wakeOn_cases e (s.stage q) with hq | ⟨k, t, hq, hq'⟩
    · exact .inl hq
    · exact .inr ⟨⟨k, t, hq⟩, k, t, hq'⟩
  have hback : ∀ (P : Stage → Prop), (∀ k t, ¬P (.woken k e t)) → ∀ q, P (s'.stage q) → P (s.stage q) := by
    intro P hP q hq
    rcases hsame q with he | ⟨-, k, t, hw⟩
    · rwa [he] at hq
    · rw [hw] at hq
      exact absurd hq (hP k t)
  have halive : ∀ q, alive (s.stage q) ↔ alive (s'.stage q) := by
    intro q
    rcases hsame q with he | ⟨⟨k, t, hw⟩, k', t', hw'⟩
    · rw [he]
    · rw [hw, hw']
      exact ⟨fun _ => ⟨by simp, by simp⟩, fun _ => ⟨by simp, by simp⟩⟩
  have hforth : ∀ (P : Stage → Prop), (∀ k t, ¬P (.waiting k e t)) → ∀ q, P (s.stage q) → P (s'.stage q) := by
    intro P hP q hq
    rcases hsame q with he | ⟨⟨k, t, hw⟩, -⟩
    · rwa [he]
    · rw [hw] at hq
      exact absurd hq (hP k t)
  have hbegun : ∀ q, begun (s.stage q) → begun (s'.stage q) := by
    intro q hq
    rcases hsame q with he | ⟨-, k, t, hw⟩
    · rwa [he]
    · rw [hw]
      exact ⟨by simp, by simp⟩
  constructor
  · exact hforth menuStage (fun k t hm => hm) kproc h.kernel
  · intro c hc
    rw [hprocs] at hc
    exact hforth (· = .absent) (by simp) c (h.fresh c hc)
  · intro c hc
    rw [hprocs]
    exact h.live c (fun hx => hc (hforth (· = .absent) (by simp) c hx))
  · intro c hk hc
    obtain ⟨q, hq, hlt, hb⟩ := h.parent c hk ((halive c).mpr hc)
    exact ⟨q, by rw [hpar, hq], by rw [hprocs]; exact hlt, hbegun q hb⟩
  · intro p pcb i c hp hi
    rw [hprocs] at hp
    obtain ⟨h1, h2, h3⟩ := h.childs p pcb i c hp hi
    exact ⟨(halive c).mp h1, by rw [hpar, h2], h3⟩
  · intro p c hp
    obtain ⟨h1, h2, h3, h4⟩ := h.making p c (hback (child · = some c) (by simp [child]) p hp)
    exact ⟨h1, (halive c).mp h2, by rw [hpar, h3], fun pcb i hg => h4 pcb i (hprocs ▸ hg)⟩
  · intro p c hp
    have hold := h.embryo p c (hback (unborn · = some c) (by simp [unborn]) p hp)
    exact hforth (· = .embryo) (by simp) c hold
  · intro c hc
    rw [hpar]
    exact h.loading c (hback (· = .loading) (by simp) c hc)
  · intro pcb i hg
    exact h.barren pcb i (hprocs ▸ hg)

/-- Only the parent's fork can be creating a process. -/
theorem kin_maker (h : Kin s) {p q c : ℕ} (hp : child (s.stage p) = some c)
    (hq : child (s.stage q) = some c) : q = p := by
  have h1 := (h.making p c hp).2.2.1
  have h2 := (h.making q c hq).2.2.1
  rw [h1] at h2
  exact (Option.some.inj h2).symm

/-- A process that is being created is in no array yet. -/
theorem kin_unheld (h : Kin s) {p c : ℕ} (hp : child (s.stage p) = some c) (q : ℕ) (pcb : Proc)
    (i : Fin MAX_CHILDS) (hq : s.procs.get q = some pcb) : pcb.childs i ≠ some c := by
  intro hi
  obtain ⟨-, -, hpar, hno⟩ := h.making p c hp
  have h2 := (h.childs q pcb i c hq hi).2.1
  rw [hpar] at h2
  cases h2
  exact hno pcb i hq hi

theorem home_menu {p : ℕ} (hp : p = kproc) : menuStage (home p) := by
  simp [home, hp, menuStage]

theorem home_plain (p : ℕ) : alive (home p) ∧ begun (home p) ∧ child (home p) = none ∧
    unborn (home p) = none ∧ home p ≠ .loading := by
  unfold home
  split <;> simp [alive, begun, child, unborn]

theorem not_kernel (h : menuStage (s.stage kproc)) {p : ℕ} (hp : ¬menuStage (s.stage p)) :
    p ≠ kproc := by
  intro hk
  rw [hk] at hp
  exact hp h

/-- The fork leaves the stages in which the child has to stay an embryo. -/
theorem kin_release (h : Kin s) {p c : ℕ} {st : Stage} (hp : s.stage p = .forking (.counted c))
    (hst : alive st) (hb : begun st) (hkid : ∀ d, child st = some d → d = c)
    (hunborn : unborn st = none) (hload : st ≠ .loading) (hmenu : p = kproc → menuStage st) :
    Kin (s.setStage p st) ∧ (s.setStage p st).stage c = .embryo ∧
      ∀ q, unborn ((s.setStage p st).stage q) ≠ some c := by
  have hcp : c ≠ p := by
    intro he
    have := h.embryo p c (by simp [hp, unborn])
    rw [he, hp] at this
    cases this
  have hkin : Kin (s.setStage p st) := by
    refine h.setStage (p := p) (by simp [hp, alive]) hst (fun _ => hb) ?_ ?_ ?_
      (fun hl => absurd hl hload) hmenu rfl rfl
    · intro d hd
      rw [hkid d hd, hp]
      rfl
    · intro d hd
      rw [hunborn] at hd
      cases hd
    · exact h.not_unborn (by simp [hp])
  refine ⟨hkin, ?_, ?_⟩
  · simp only [System.setStage, update_of_ne hcp]
    exact h.embryo p c (by simp [hp, unborn])
  · intro q hq
    simp only [System.setStage] at hq
    by_cases hqp : q = p
    · rw [hqp, update_self, hunborn] at hq
      cases hq
    · rw [update_of_ne hqp] at hq
      exact hqp (kin_maker h (by simp [hp, child, Forking.child]) (unborn_child hq))

theorem abandon_kin {p c : ℕ} (h : Kin s) (hp : s.stage p = .forking (.counted c)) :
    Kin { s with procs := s.procs.free c, stage := update (update s.stage c .absent) p (home p) } := by
  obtain ⟨hal, hb, hnokid, hnounborn, hload⟩ := home_plain p
  have hmake : child (s.stage p) = some c := by simp [hp, child, Forking.child]
  obtain ⟨hkin, hemb, -⟩ := kin_release h hp hal hb
    (fun d hd => by rw [hnokid] at hd; cases hd) hnounborn hload home_menu
  have hcp : c ≠ p := by
    intro he
    have := h.embryo p c (by simp [hp, unborn])
    rw [he, hp] at this
    cases this
  refine hkin.leave (c := c) (h.making p c hmake).1 ?_ (kin_unheld h hmake) (.inl ⟨rfl, rfl⟩)
    (update_comm hcp.symm _ _ _).symm
  intro q hq
  by_cases hqp : q = p
  · simp [System.setStage, hqp, hnokid] at hq
  · simp only [System.setStage, update_of_ne hqp] at hq
    exact hqp (kin_maker h hmake hq)

/-- The new thread is on its way. -/
theorem born_kin {p c : ℕ} {st born : Stage} (h : Kin s) (hp : s.stage p = .forking (.counted c))
    (hst : alive st) (hb : begun st) (hkid : ∀ d, child st = some d → d = c)
    (hunborn : unborn st = none) (hload : st ≠ .loading) (hmenu : p = kproc → menuStage st)
    (hborn : born = .running ∨ born = .loading ∧ p = kproc) :
    Kin { s with stage := update (update s.stage c born) p st } := by
  have hmake : child (s.stage p) = some c := by simp [hp, child, Forking.child]
  obtain ⟨hkin, hemb, hfree⟩ := kin_release h hp hst hb hkid hunborn hload hmenu
  have hcp : c ≠ p := by
    intro he
    have := h.embryo p c (by simp [hp, unborn])
    rw [he, hp] at this
    cases this
  have hplain : alive born ∧ child born = none ∧ unborn born = none := by
    rcases hborn with rfl | ⟨rfl, -⟩ <;> simp [alive, child, unborn]
  refine hkin.setStage (p := c) (by rw [hemb]; simp [alive]) hplain.1 ?_ ?_ ?_ hfree ?_ ?_ rfl
    (update_comm hcp.symm _ _ _).symm
  · intro hbeg
    rw [hemb] at hbeg
    exact absurd rfl hbeg.1
  · intro d hd
    rw [hplain.2.1] at hd
    cases hd
  · intro d hd
    rw [hplain.2.2] at hd
    cases hd
  · intro hl
    rcases hborn with rfl | ⟨-, rfl⟩
    · cases hl
    · exact (h.making _ c hmake).2.2.1
  · intro hk
    exact absurd hk (h.making p c hmake).1

/-- A stage in which a process creates no one. -/
def plain (st : Stage) : Prop := alive st ∧ begun st ∧ child st = none

theorem plain_unborn {st : Stage} (h : plain st) : unborn st = none := by
  cases hst : unborn st with
  | none => rfl
  | some c =>
    have := h.2.2
    rw [unborn_child hst] at this
    cases this

/-- One process goes on to a stage in which it creates no one. -/
theorem plain_kin {p : ℕ} {st : Stage} (h : Kin s) (hp : alive (s.stage p)) (hemb : s.stage p ≠ .embryo)
    (hst : plain st) (hmenu : p = kproc → menuStage st)
    (hprocs : s'.procs = s.procs) (hstage : s'.stage = update s.stage p st) : Kin s' := by
  refine h.setStage (p := p) hp hst.1 (fun _ => hst.2.1) ?_ ?_ (h.not_unborn hemb)
    (fun hl => absurd hl hst.2.1.2) hmenu hprocs hstage
  · intro c hc
    rw [hst.2.2] at hc
    cases hc
  · intro c hc
    rw [plain_unborn hst] at hc
    cases hc

/-- Where a move starts and where it ends. -/
theorem moves_plain {p : ℕ} {st : Stage} (h : menuStage (s.stage kproc)) (hm : Moves s p st) :
    alive (s.stage p) ∧ s.stage p ≠ .embryo ∧ plain st ∧ (p = kproc → menuStage st) := by
  cases hm with
  | runprogram hp => exact ⟨by simp [hp, alive], by simp [hp], by simp [plain, alive, begun, child,
      Forking.child], fun _ => trivial⟩
  | fork hp hpcb hlt =>
    refine ⟨by simp [hp, alive], by simp [hp], by simp [plain, alive, begun, child, Forking.child], ?_⟩
    exact fun hk => absurd hk (not_kernel h (by simp [hp, menuStage]))
  | refused hp =>
    refine ⟨by simp [hp, alive], by simp [hp], by simp [plain, alive, begun, child], ?_⟩
    exact fun hk => absurd hk (not_kernel h (by simp [hp, menuStage]))
  | admitted hp => exact ⟨by simp [hp, alive], by simp [hp], by simp [plain, alive, begun, child,
      Forking.child], fun _ => trivial⟩
  | noMemory hp =>
    obtain ⟨h1, h2, h3, -, -⟩ := home_plain p
    exact ⟨by simp [hp, alive], by simp [hp], ⟨h1, h2, h3⟩, home_menu⟩
  | loaded hp =>
    refine ⟨by simp [hp, alive], by simp [hp], by simp [plain, alive, begun, child], ?_⟩
    exact fun hk => absurd hk (not_kernel h (by simp [hp, menuStage]))

theorem adopted_childs {c d : ℕ} {pcb : Proc} {i : Fin MAX_CHILDS}
    (h : (adopted c pcb).childs i = some d) :
    (d = c ∧ firstFree pcb.childs = some i) ∨ pcb.childs i = some d := by
  cases hj : firstFree pcb.childs with
  | none =>
    simp only [adopted, hj] at h
    exact .inr h
  | some j =>
    simp only [adopted, hj] at h
    by_cases hij : i = j
    · subst hij
      rw [update_self] at h
      exact .inl ⟨(Option.some.inj h).symm, rfl⟩
    · rw [update_of_ne hij] at h
      exact .inr h

theorem alive_running {p d : ℕ} (hd : alive (s.stage d)) : alive (update s.stage p .running d) := by
  by_cases hdp : d = p
  · simp [hdp, alive]
  · rwa [update_of_ne hdp]

theorem child_running {p r d : ℕ} (hr : child (update s.stage p .running r) = some d) :
    r ≠ p ∧ child (s.stage r) = some d := by
  by_cases hrp : r = p
  · rw [hrp, update_self] at hr
    cases hr
  · rw [update_of_ne hrp] at hr
    exact ⟨hrp, hr⟩

theorem record_kin {p c : ℕ} {pcb : Proc} (h : Kin s) (hp : s.stage p = .forking (.started c))
    (hpcb : s.procs.get p = some pcb) (hprocs : s'.procs = s.procs.set p (adopted c pcb))
    (hstage : s'.stage = update s.stage p .running) : Kin s' := by
  have hk : p ≠ kproc := not_kernel h.kernel (by simp [hp, menuStage])
  have hkin : Kin (s.setStage p .running) := plain_kin h (by simp [hp, alive]) (by simp [hp])
    (by simp [plain, alive, begun, child]) (fun he => absurd he hk) rfl rfl
  obtain ⟨-, hal, hpar, hno⟩ := h.making p c (by simp [hp, child, Forking.child])
  refine hkin.setChilds hpcb (show (adopted c pcb).parent = pcb.parent from rfl) ?_ ?_ hprocs hstage
  · intro i d hi
    rcases adopted_childs hi with ⟨rfl, hfree⟩ | hold
    · refine ⟨hk, alive_running hal, hpar, ?_⟩
      intro j hj
      rcases adopted_childs hj with ⟨-, hfree'⟩ | hold
      · rw [hfree] at hfree'
        exact (Option.some.inj hfree').symm
      · exact absurd hold (hno pcb j hpcb)
    · obtain ⟨h1, h2, h3⟩ := h.childs p pcb i d hpcb hold
      refine ⟨hk, alive_running h1, h2, ?_⟩
      intro j hj
      rcases adopted_childs hj with ⟨rfl, -⟩ | hold'
      · exact absurd hold (hno pcb i hpcb)
      · exact h3 j hold'
  · intro d i hd
    simp [System.setStage, child] at hd

/-- A running process is no one's unfinished child once it has been recorded. -/
theorem recorded_free {p : ℕ} {code : ℤ} (h : Kin s) (hrun : s.stage p = .running)
    (hrec : Recorded (.exit p code) s) (r : ℕ) : child (s.stage r) ≠ some p := by
  intro hr
  cases hst : s.stage r with
  | forking f =>
    have hrlt := h.lt (by rw [hst]; simp : s.stage r ≠ .absent)
    rw [hst] at hr
    cases f with
    | checked => cases hr
    | admitted => cases hr
    | created c =>
      cases hr
      exact h.not_unborn (by simp [hrun] : s.stage p ≠ .embryo) r (by simp [hst, unborn])
    | counted c =>
      cases hr
      exact h.not_unborn (by simp [hrun] : s.stage p ≠ .embryo) r (by simp [hst, unborn])
    | started c =>
      cases hr
      exact hrec ⟨r, hrlt⟩ hst
  | _ =>
    rw [hst] at hr
    cases hr

theorem child_wakeOn (e : ℕ) (st : Stage) : child (st.wakeOn e) = child st := by
  rcases wakeOn_cases e st with h | ⟨k, t, h, h'⟩
  · rw [h]
  · rw [h', h]
    rfl

/-- A parent lets go of a child. -/
theorem unlink_kin {p q : ℕ} {par : Proc} (h : Kin s) (hq : s.procs.get q = some par) :
    Kin { s with procs := unlinked p q par s.procs } := by
  cases hj : indexOf p par.childs with
  | none =>
    simp only [unlinked, hj]
    exact h
  | some j =>
    have hold : ∀ a c, update par.childs j none a = some c → par.childs a = some c := by
      intro a c hc
      by_cases haj : a = j
      · simp [haj] at hc
      · simpa [update_of_ne haj] using hc
    simp only [unlinked, hj]
    refine h.setChilds hq
      (show Proc.parent { par with childs := update par.childs j none } = par.parent from rfl) ?_ ?_ rfl rfl
    · intro a c hc
      obtain ⟨h1, h2, h3⟩ := h.childs q par a c hq (hold a c hc)
      refine ⟨?_, h1, h2, fun b hb => h3 b (hold b c hb)⟩
      intro hk
      have := h.barren par a (hk ▸ hq)
      rw [hold a c hc] at this
      cases this
    · intro c a hc hi
      exact (h.making q c hc).2.2.2 par a hq (hold a c hi)

/-- After that no one holds the child: it was in one array, and there once. -/
theorem unlinked_unheld {p q : ℕ} {par : Proc} (h : Kin s) (hq : s.procs.get q = some par)
    (hpar : parentOf s p = some q) (r : ℕ) (x : Proc) (j : Fin MAX_CHILDS)
    (hr : (unlinked p q par s.procs).get r = some x) : x.childs j ≠ some p := by
  intro hj
  obtain ⟨y, hy, -, -, -, hsub, -⟩ := unlinked_get hq hr
  obtain ⟨-, hpr, huniq⟩ := h.childs r y j p hy (hsub j p hj)
  rw [hpar] at hpr
  cases hpr
  rw [hq] at hy
  cases hy
  cases hi : indexOf p par.childs with
  | none => exact indexOf_eq_none.mp hi j (hsub j p hj)
  | some b =>
    have hbj := huniq b (indexOf_eq_some.mp hi).1
    simp only [unlinked, hi] at hr
    rw [Store.set_get_self hq] at hr
    cases hr
    simp [hbj] at hj

theorem exit_kin {p : ℕ} {code : ℤ} {pcb : Proc} {i : Fin MAX_PROCS} {cur : ℕ} {en : Entry} {q : ℕ}
    {par : Proc} (h : Kin s) (hrec : Recorded (.exit p code) s)
    (hex : Exiting p code pcb i cur en q par s s') : Kin s' := by
  have hrun := hex.running
  have hk : p ≠ kproc := not_kernel h.kernel (by simp [hrun, menuStage])
  have hpar : parentOf s p = some q := by
    rw [parentOf, (Store.get_some.mp hex.self).2]
    exact hex.parent
  -- the waiters wake, the parent lets go of the child, and then the child leaves
  have hawake : Kin (broadcast cur s) := kin_wakeAll h cur rfl rfl
  have hlet := unlink_kin (p := p) hawake hex.parentLive
  refine hlet.leave (c := p) hk ?_ (unlinked_unheld hawake hex.parentLive hpar)
    (.inr ⟨rfl, hex.procs, ?_⟩) hex.stage
  · intro r
    show child ((s.stage r).wakeOn cur) ≠ some p
    rw [child_wakeOn]
    exact recorded_free h hrun hrec r
  · show (s.stage p).wakeOn cur ≠ .absent
    rw [hrun]
    simp [Stage.wakeOn]

theorem unload_kin {p : ℕ} (h : Kin s) (hp : s.stage p = .loading) :
    Kin { s with procs := s.procs.free p, stage := update s.stage p .absent } := by
  have hpar := h.loading p hp
  refine h.leave (c := p) (not_kernel h.kernel (by simp [hp, menuStage])) ?_ ?_ (.inl ⟨rfl, rfl⟩) rfl
  · intro r hr
    have hrk : r = kproc := by
      have := (h.making r p hr).2.2.1
      rw [hpar] at this
      exact (Option.some.inj this).symm
    have hmenu := h.kernel
    rw [← hrk] at hmenu
    have hemb : unborn (s.stage r) = some p := by
      cases hst : s.stage r with
      | forking f =>
        rw [hst] at hr hmenu
        cases f with
        | started c => exact absurd hmenu (by simp [menuStage])
        | _ => exact hr
      | _ =>
        rw [hst] at hr
        cases hr
    exact h.not_unborn (by simp [hp] : s.stage p ≠ .embryo) r hemb
  · intro r x j hr hj
    have hrk := (h.childs r x j p hr hj).2.1
    rw [hpar] at hrk
    cases hrk
    rw [h.barren x j hr] at hj
    cases hj

theorem destroy_kin {p : ℕ} (h : Kin s) (hp : s.stage p = .exited) :
    Kin { s with procs := s.procs.free p, stage := update s.stage p .absent } := by
  have hdead : ¬alive (s.stage p) := by simp [hp, alive]
  refine h.leave (c := p) (not_kernel h.kernel (by simp [hp, menuStage])) ?_ ?_ (.inl ⟨rfl, rfl⟩) rfl
  · intro r hr
    exact hdead (h.making r p hr).2.1
  · intro r x j hr hj
    exact hdead (h.childs r x j p hr hj).1

/-- The caller of `sys_waitpid` goes to sleep, or back to user mode. -/
theorem caller_kin {p : ℕ} {st : Stage} (h : Kin s) (hp : ¬menuStage (s.stage p))
    (hal : alive (s.stage p)) (hemb : s.stage p ≠ .embryo) (hst : plain st)
    (hprocs : s'.procs = s.procs) (hstage : s'.stage = update s.stage p st) : Kin s' :=
  plain_kin h hal hemb hst (fun hk => absurd hk (not_kernel h.kernel hp)) hprocs hstage

theorem countUp_kin {p c : ℕ} (h : Kin s) (hp : s.stage p = .forking (.created c)) :
    Kin { s.setStage p (.forking (.counted c)) with count := s.count+1 } := by
  obtain ⟨hal, hb⟩ := child_begun (show child (.forking (.counted c)) = some c from rfl)
  refine h.setStage (by simp [hp, alive]) hal (fun _ => hb) ?_ ?_ (h.not_unborn (by simp [hp]))
    (by simp) (fun _ => trivial) rfl rfl
  · intro d hd
    rw [hp]
    exact hd
  · intro d hd
    rw [hp]
    exact hd

theorem returns_kin {p : ℕ} {k : ℤ} {st : Status} {r : Except Errno (ℤ × Option ℤ)} (h : Kin s) :
    Kin (returns p k st r s) := ⟨h.kernel, h.fresh, h.live, h.parent, h.childs, h.making, h.embryo,
  h.loading, h.barren⟩

theorem effect_kin {a : Action} (h : Kin s) (hg : Recorded a s) (he : Effect s a s') : Kin s' := by
  cases he with
  | stay => exact h
  | move hm =>
    obtain ⟨h1, h2, h3, h4⟩ := moves_plain h.kernel hm
    exact plain_kin h h1 h2 h3 h4 rfl rfl
  | insert hp hins => exact insert_kin h hp hins
  | countUp hp => exact countUp_kin h hp
  | abandon hp => exact abandon_kin h hp
  | load hp =>
    have hmenu : plain .menu := by simp [plain, alive, begun, child]
    exact born_kin h hp hmenu.1 hmenu.2.1 (by simp [child]) rfl (by simp) (fun _ => trivial)
      (.inr ⟨rfl, rfl⟩)
  | launch hk hp =>
    obtain ⟨hal, hb⟩ := child_begun (show child (.forking (.started _)) = some _ from rfl)
    exact born_kin h hp hal hb (by simp [child, Forking.child]) rfl (by simp)
      (fun hx => absurd hx hk) (.inl rfl)
  | record hp hpcb => exact record_kin h hp hpcb rfl rfl
  | unload hp => exact unload_kin h hp
  | exit hex => exact exit_kin h hg hex
  | destroy hp => exact destroy_kin h hp
  | noProcess => exact returns_kin h
  | noChild => exact returns_kin h
  | sleep hask =>
    have hrun := hask.running
    exact caller_kin h (by simp [hrun, menuStage]) (by simp [hrun, alive]) (by simp [hrun])
      (by simp [plain, alive, begun, child]) rfl rfl
  | reap hask _ hreap =>
    have hrun := hask.running
    exact caller_kin h (by simp [hrun, menuStage]) (by simp [hrun, alive]) (by simp [hrun])
      (by simp [plain, alive, begun, child]) hreap.procs hreap.stage
  | wake hp hreap =>
    exact caller_kin h (by simp [hp, menuStage]) (by simp [hp, alive]) (by simp [hp])
      (by simp [plain, alive, begun, child]) hreap.procs hreap.stage

theorem alive_update {p c : ℕ} {st : Stage} (hp : alive (s.stage p))
    (h : alive (update s.stage p st c)) : alive (s.stage c) := by
  by_cases hcp : c = p
  · rwa [hcp]
  · rwa [update_of_ne hcp] at h

theorem alive_update_two {p q c : ℕ} {st st' : Stage} (hp : alive (s.stage p)) (hq : alive (s.stage q))
    (h : alive (update (update s.stage q st) p st' c)) : alive (s.stage c) := by
  by_cases hcp : c = p
  · rwa [hcp]
  · rw [update_of_ne hcp] at h
    exact alive_update hq h

theorem exit_dead {p : ℕ} {code : ℤ} {pcb : Proc} {i : Fin MAX_PROCS} {cur : ℕ} {en : Entry} {q : ℕ}
    {par : Proc} (hex : Exiting p code pcb i cur en q par s s') {c : ℕ} (hc : alive (s'.stage c)) :
    c ≠ p ∧ alive (s.stage c) := by
  rw [hex.stage] at hc
  have hcp : c ≠ p := by
    intro he
    simp [he, alive] at hc
  rw [update_of_ne hcp] at hc
  refine ⟨hcp, ?_⟩
  rcases wakeOn_cases cur (s.stage c) with hsame | ⟨k, t, hw, -⟩
  · rwa [hsame] at hc
  · simp [hw, alive]

/-- No process is created, comes to life, or changes its pid or its parent. -/
structure Steady (s s' : System) : Prop where
  next : s'.procs.next = s.procs.next
  parent : ∀ c, parentOf s' c = parentOf s c
  pid : ∀ c, pidOf s' c = pidOf s c
  alive : ∀ c, alive (s'.stage c) → alive (s.stage c)

/-- Only the insertion of a new process is not steady. -/
theorem effect_steady {a : Action} (h : Kin s) (he : Effect s a s') :
    (∃ p k junk, a = .insert p true junk ∧ s.stage p = .forking .admitted ∧ Inserting p k s s') ∨
      Steady s s' := by
  have hkeep : ∀ {s' : System}, s'.procs = s.procs →
      (∀ c, alive (s'.stage c) → alive (s.stage c)) → Steady s s' :=
    fun hprocs hal => ⟨by rw [hprocs], fun c => by simp [parentOf, hprocs],
      fun c => by simp [pidOf, hprocs], hal⟩
  cases he with
  | stay => exact .inr (hkeep rfl fun _ hc => hc)
  | move hm => exact .inr (hkeep rfl fun c => alive_update (moves_plain h.kernel hm).1)
  | @insert p junk k s' hp hins => exact .inl ⟨p, k, junk, rfl, hp, hins⟩
  | countUp hp => exact .inr (hkeep rfl fun c => alive_update (by simp [hp, alive]))
  | @abandon p c hp =>
    have hc := h.embryo p c (by simp [hp, unborn])
    exact .inr ⟨rfl, fun _ => rfl, fun _ => rfl,
      fun d => alive_update_two (by simp [hp, alive]) (by simp [hc, alive])⟩
  | @load c hp =>
    have hc := h.embryo kproc c (by simp [hp, unborn])
    exact .inr (hkeep rfl fun d => alive_update_two (by simp [hp, alive]) (by simp [hc, alive]))
  | @launch p c hk hp =>
    have hc := h.embryo p c (by simp [hp, unborn])
    exact .inr (hkeep rfl fun d => alive_update_two (by simp [hp, alive]) (by simp [hc, alive]))
  | @record p c junk pcb hp hpcb =>
    refine .inr ⟨rfl, ?_, fun d => Store.set_map Proc.pid hpcb (by rfl) d,
      fun d => alive_update (by simp [hp, alive])⟩
    exact parentOf_set hpcb (show _ = s.procs.set p (adopted c pcb) from rfl) rfl
  | unload hp =>
    exact .inr ⟨rfl, fun _ => rfl, fun _ => rfl, fun d => alive_update (by simp [hp, alive])⟩
  | exit hex =>
    obtain ⟨hpar, -, hnext⟩ := unlinked_frame hex.parentLive hex.procs
    exact .inr ⟨hnext, hpar, pidOf_unlinked hex.parentLive hex.procs, fun c hc => (exit_dead hex hc).2⟩
  | @destroy p hp =>
    refine .inr ⟨rfl, fun _ => rfl, fun _ => rfl, ?_⟩
    intro c hc
    by_cases hcp : c = p
    · simp [hcp, alive] at hc
    · simpa [update_of_ne hcp] using hc
  | noProcess => exact .inr (hkeep rfl fun _ hc => hc)
  | noChild => exact .inr (hkeep rfl fun _ hc => hc)
  | sleep hask => exact .inr (hkeep rfl fun c => alive_update (by simp [hask.running, alive]))
  | reap hask _ hreap =>
    refine .inr (hkeep hreap.procs fun c hc => ?_)
    rw [hreap.stage] at hc
    exact alive_update (by simp [hask.running, alive]) hc
  | wake hp hreap =>
    refine .inr (hkeep hreap.procs fun c hc => ?_)
    rw [hreap.stage] at hc
    exact alive_update (by simp [hp, alive]) hc

theorem boot_kin : Kin boot := by
  have hk : boot.stage kproc = .menu := rfl
  have hlast : ∀ p, child (boot.stage p) = none ∧ unborn (boot.stage p) = none := by
    intro p
    by_cases hp : p = kproc
    · rw [hp, hk]
      exact ⟨rfl, rfl⟩
    · rw [boot_stage hp]
      exact ⟨rfl, rfl⟩
  constructor
  · trivial
  · intro c hc
    exact boot_stage (by rintro rfl; simp [boot, fileTableBootstrap, procBootstrap, kproc] at hc)
  · intro c hc
    by_cases hck : c = kproc
    · subst hck
      rfl
    · exact absurd (boot_stage hck) hc
  · intro c hck hc
    exact absurd (boot_stage hck) hc.1
  · intro p pcb i c hp hi
    rw [(boot_get hp).2] at hi
    cases hi
  · intro p c hp
    rw [(hlast p).1] at hp
    cases hp
  · intro p c hp
    rw [(hlast p).2] at hp
    cases hp
  · intro c hc
    by_cases hck : c = kproc
    · subst hck
      rw [hk] at hc
      cases hc
    · rw [boot_stage hck] at hc
      cases hc
  · intro pcb i hp
    rw [(boot_get hp).2]
    rfl

end OS161.KinSteps
