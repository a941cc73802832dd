import OS161.KinSteps
import OS161.ProcessEntries

/-!
# The kernel's process and the processes being created

These facts survive every action without any condition: the menu's thread
stays in its own stages, and a process that a fork has created and not yet
started stays an embryo of that fork alone. From them follows how the count of
processes and the table have to do with the processes ever created.
-/

set_option autoImplicit false

namespace OS161.ProcessBirths

open Function OS161.Slots OS161.Vfs OS161.ProcessTable OS161.ProcessEffects OS161.ProcessSteps
open OS161.ProcessKin OS161.KinSteps OS161.ProcessEntries

structure Cradle (s : System) : Prop where
  kernel : menuStage (s.stage kproc)
  fresh : ∀ c, s.procs.next ≤ c → s.stage c = .absent
  embryo : ∀ p c, unborn (s.stage p) = some c → s.stage c = .embryo ∧ parentOf s c = some p

variable {s s' : System}

theorem Cradle.lt (h : Cradle s) {c : ℕ} (hc : s.stage c ≠ .absent) : c < s.procs.next := by
  by_contra hge
  exact hc (h.fresh c (by omega))

theorem Cradle.not_embryo (h : Cradle s) {p : ℕ} (hp : s.stage p ≠ .embryo) (q : ℕ) :
    unborn (s.stage q) ≠ some p := fun hq => hp (h.embryo q p hq).1

theorem Cradle.frame (h : Cradle s) (hnext : s'.procs.next = s.procs.next)
    (hpar : ∀ c, parentOf s' c = parentOf s c) (hmenu : menuStage (s'.stage kproc))
    (habsent : ∀ c, s.procs.next ≤ c → s'.stage c = s.stage c)
    (hunborn : ∀ p c, unborn (s'.stage p) = some c →
      unborn (s.stage p) = some c ∧ s'.stage c = s.stage c) : Cradle s' := by
  constructor
  · exact hmenu
  · intro c hc
    rw [hnext] at hc
    rw [habsent c hc]
    exact h.fresh c hc
  · intro p c hp
    obtain ⟨hold, hsame⟩ := hunborn p c hp
    obtain ⟨h1, h2⟩ := h.embryo p c hold
    exact ⟨by rw [hsame, h1], by rw [hpar, h2]⟩

/-- One process that is not an embryo moves on. -/
theorem Cradle.setStage (h : Cradle s) {p : ℕ} {st : Stage} (hp : s.stage p ≠ .embryo)
    (hpres : s.stage p ≠ .absent) (hst : ∀ c, unborn st = some c → unborn (s.stage p) = some c)
    (hmenu : p = kproc → menuStage st) (hnext : s'.procs.next = s.procs.next)
    (hpar : ∀ c, parentOf s' c = parentOf s c) (hstage : s'.stage = update s.stage p st) :
    Cradle s' := by
  have hlt := h.lt hpres
  refine h.frame hnext hpar ?_ ?_ ?_
  · rw [hstage]
    by_cases hk : kproc = p
    · rw [hk, update_self]
      exact hmenu hk.symm
    · rw [update_of_ne hk]
      exact h.kernel
  · intro c hc
    rw [hstage, update_of_ne (by omega)]
  · intro q c hq
    have hold : unborn (s.stage q) = some c := by
      rw [hstage] at hq
      by_cases hqp : q = p
      · rw [hqp, update_self] at hq
        rw [hqp]
        exact hst c hq
      · rwa [update_of_ne hqp] at hq
    refine ⟨hold, ?_⟩
    have hcp : c ≠ p := by
      intro he
      exact h.not_embryo hp q (he ▸ hold)
    rw [hstage, update_of_ne hcp]

/-- A fork is done with its embryo. -/
theorem Cradle.deliver (h : Cradle s) {p c : ℕ} {st born : Stage}
    (hp : s.stage p = .forking (.counted c)) (hst : unborn st = none) (hborn : unborn born = none)
    (hmenu : p = kproc → menuStage st) (hnext : s'.procs.next = s.procs.next)
    (hpar : ∀ d, parentOf s' d = parentOf s d)
    (hstage : s'.stage = update (update s.stage c born) p st) : Cradle s' := by
  obtain ⟨hemb, hmother⟩ := h.embryo p c (by simp [hp, unborn])
  have hplt := h.lt (by simp [hp] : s.stage p ≠ .absent)
  have hclt := h.lt (by simp [hemb] : s.stage c ≠ .absent)
  have hck : c ≠ kproc := not_kernel h.kernel (by simp [hemb, menuStage])
  refine h.frame hnext hpar ?_ ?_ ?_
  · rw [hstage]
    by_cases hk : kproc = p
    · rw [hk, update_self]
      exact hmenu hk.symm
    · rw [update_of_ne hk, update_of_ne hck.symm]
      exact h.kernel
  · intro d hd
    rw [hstage, update_of_ne (by omega), update_of_ne (by omega)]
  · intro q d hq
    rw [hstage] at hq
    have hqp : q ≠ p := by
      intro he
      rw [he, update_self, hst] at hq
      cases hq
    rw [update_of_ne hqp] at hq
    have hqc : q ≠ c := by
      intro he
      rw [he, update_self, hborn] at hq
      cases hq
    rw [update_of_ne hqc] at hq
    obtain ⟨hd, hmother'⟩ := h.embryo q d hq
    have hdc : d ≠ c := by
      intro he
      rw [he, hmother] at hmother'
      exact hqp (Option.some.inj hmother').symm
    have hdp : d ≠ p := by
      intro he
      rw [he, hp] at hd
      cases hd
    exact ⟨hq, by rw [hstage, update_of_ne hdp, update_of_ne hdc]⟩

theorem insert_cradle {p : ℕ} {k : ℤ} (h : Cradle s) (hp : s.stage p = .forking .admitted)
    (hins : Inserting p k s s') : Cradle s' := by
  have hplt := h.lt (by simp [hp] : s.stage p ≠ .absent)
  have hkn : kproc < s.procs.next := by
    apply h.lt
    intro hk
    have := h.kernel
    rw [hk] at this
    exact this
  constructor
  · by_cases hk : kproc = p
    · rw [hk, hins.stage_self]
      trivial
    · rw [hins.stage_ne hk (by omega)]
      exact h.kernel
  · intro c hc
    rw [hins.procs, Store.alloc_next] at hc
    rw [hins.stage_ne (by omega) (by omega)]
    exact h.fresh c (by omega)
  · intro q c hq
    rcases inserted_child hins hplt (unborn_child hq) with ⟨rfl, rfl⟩ | ⟨hsame, -⟩
    · exact ⟨hins.stage_new hplt, inserted_parent_new hins⟩
    · rw [hsame] at hq
      obtain ⟨hc, hmother⟩ := h.embryo q c hq
      have hclt := h.lt (by simp [hc] : s.stage c ≠ .absent)
      have hcp : c ≠ p := by
        intro he
        rw [he, hp] at hc
        cases hc
      have hcn : c ≠ s.procs.next := by omega
      exact ⟨by rw [hins.stage_ne hcp hcn, hc], by rw [inserted_parent hins hcn, hmother]⟩

theorem exit_cradle {p : ℕ} {code : ℤ} {pcb : Proc} {i : Fin MAX_PROCS} {cur : ℕ} {en : Entry} {q : ℕ}
    {par : Proc} (h : Cradle s) (hex : Exiting p code pcb i cur en q par s s') : Cradle s' := by
  obtain ⟨hpar, -, hnext⟩ := unlinked_frame hex.parentLive hex.procs
  have hrun := hex.running
  have hplt := h.lt (by simp [hrun] : s.stage p ≠ .absent)
  have hpk : p ≠ kproc := not_kernel h.kernel (by simp [hrun, menuStage])
  have hwake : ∀ r, r ≠ p → s'.stage r = (s.stage r).wakeOn cur := by
    intro r hr
    rw [hex.stage, update_of_ne hr]
  refine h.frame hnext hpar ?_ ?_ ?_
  · rw [hwake _ hpk.symm]
    rcases wakeOn_cases cur (s.stage kproc) with hsame | ⟨k, t, hw, -⟩
    · rw [hsame]
      exact h.kernel
    · have := h.kernel
      rw [hw] at this
      exact absurd this id
  · intro c hc
    rw [hwake c (by omega), h.fresh c hc]
    rfl
  · intro r c hr
    have hrp : r ≠ p := by
      intro he
      rw [he, hex.stage, update_self] at hr
      cases hr
    rw [hwake r hrp] at hr
    have hold : unborn (s.stage r) = some c := by
      rcases wakeOn_cases cur (s.stage r) with hsame | ⟨k, t, -, hw⟩
      · rwa [hsame] at hr
      · rw [hw] at hr
        cases hr
    have hc := (h.embryo r c hold).1
    have hcp : c ≠ p := by
      intro he
      rw [he, hrun] at hc
      cases hc
    exact ⟨hold, by rw [hwake c hcp, hc]; rfl⟩

theorem effect_cradle {a : Action} (h : Cradle s) (he : Effect s a s') : Cradle s' := by
  have hnone : ∀ {p : ℕ} {st : Stage}, unborn st = none →
      ∀ c, unborn st = some c → unborn (s.stage p) = some c := by
    intro p st hst c hc
    rw [hst] at hc
    cases hc
  have hker : ∀ {p : ℕ} {st : Stage}, ¬menuStage (s.stage p) → p = kproc → menuStage st :=
    fun hp hk => absurd hk (not_kernel h.kernel hp)
  cases he with
  | stay => exact h
  | move hm =>
    obtain ⟨hal, hemb, hst, hmenu⟩ := moves_plain h.kernel hm
    exact h.setStage hemb hal.1 (hnone (plain_unborn hst)) hmenu rfl (fun _ => rfl) rfl
  | insert hp hins => exact insert_cradle h hp hins
  | @countUp p c hp =>
    have hmenu : menuStage (.forking (.counted c)) := trivial
    refine h.setStage (by simp [hp]) (by simp [hp]) ?_ (fun _ => hmenu) rfl (fun _ => rfl) rfl
    intro d hd
    rw [hp]
    exact hd
  | @abandon p c hp => exact h.deliver hp (home_plain p).2.2.2.1 rfl home_menu rfl (fun _ => rfl) rfl
  | load hp =>
    have hmenu : menuStage .menu := trivial
    exact h.deliver hp rfl rfl (fun _ => hmenu) rfl (fun _ => rfl) rfl
  | launch hk hp => exact h.deliver hp rfl rfl (fun hx => absurd hx hk) rfl (fun _ => rfl) rfl
  | @record p c junk pcb hp hpcb =>
    refine h.setStage (by simp [hp]) (by simp [hp]) (hnone rfl) (hker (by simp [hp, menuStage])) rfl ?_
      rfl
    exact parentOf_set hpcb (show _ = s.procs.set p (adopted c pcb) from rfl) rfl
  | unload hp =>
    exact h.setStage (by simp [hp]) (by simp [hp]) (hnone rfl) (hker (by simp [hp, menuStage])) rfl
      (fun _ => rfl) rfl
  | exit hex => exact exit_cradle h hex
  | destroy hp =>
    exact h.setStage (by simp [hp]) (by simp [hp]) (hnone rfl) (hker (by simp [hp, menuStage])) rfl
      (fun _ => rfl) rfl
  | noProcess => exact ⟨h.kernel, h.fresh, h.embryo⟩
  | noChild => exact ⟨h.kernel, h.fresh, h.embryo⟩
  | sleep hask =>
    have hp := hask.running
    exact h.setStage (by simp [hp]) (by simp [hp]) (hnone rfl) (hker (by simp [hp, menuStage])) rfl
      (fun _ => rfl) rfl
  | reap hask _ hreap =>
    have hp := hask.running
    exact h.setStage (by simp [hp]) (by simp [hp]) (hnone rfl) (hker (by simp [hp, menuStage]))
      (by rw [hreap.procs]) (fun _ => by simp [parentOf, hreap.procs]) hreap.stage
  | wake hp hreap =>
    exact h.setStage (by simp [hp]) (by simp [hp]) (hnone rfl) (hker (by simp [hp, menuStage]))
      (by rw [hreap.procs]) (fun _ => by simp [parentOf, hreap.procs]) hreap.stage

/-- A process whose creation `GLOBAL_PROC_COUNT` does not show yet. -/
def uncounted : Stage → ℕ
  | .forking (.created _) => 1
  | _ => 0

/-- The count and the table, against the processes ever created. -/
structure Births (s : System) : Prop where
  count : s.count + total (fun p => uncounted (s.stage p)) s.procs.next = s.procs.next
  table : occupied s.table < s.procs.next

/-- Nothing is created or counted, and the table gains no entry. -/
theorem Births.frame (h : Births s) (hcount : s'.count = s.count) (hnext : s'.procs.next = s.procs.next)
    (htable : occupied s'.table ≤ occupied s.table)
    (hstage : ∀ q, uncounted (s'.stage q) = uncounted (s.stage q)) : Births s' := by
  constructor
  · rw [hcount, hnext, total_congr (fun q _ => hstage q)]
    exact h.count
  · rw [hnext]
    exact lt_of_le_of_lt htable h.table

theorem uncounted_update {p : ℕ} {st : Stage} (hp : uncounted (s.stage p) = uncounted st) (q : ℕ) :
    uncounted (update s.stage p st q) = uncounted (s.stage q) := by
  by_cases hqp : q = p
  · rw [hqp, update_self, hp]
  · rw [update_of_ne hqp]

theorem uncounted_wakeOn (e : ℕ) (st : Stage) : uncounted (st.wakeOn e) = uncounted st := by
  rcases wakeOn_cases e st with h | ⟨k, t, h, h'⟩
  · rw [h]
  · rw [h', h]
    rfl

theorem uncounted_home (p : ℕ) : uncounted (home p) = 0 := by
  unfold home
  split <;> rfl

theorem moves_uncounted {p : ℕ} {st : Stage} (h : Moves s p st) :
    uncounted (s.stage p) = uncounted st := by
  cases h with
  | noMemory hp => rw [hp, uncounted_home]; rfl
  | runprogram hp => rw [hp]; rfl
  | fork hp => rw [hp]; rfl
  | refused hp => rw [hp]; rfl
  | admitted hp => rw [hp]; rfl
  | loaded hp => rw [hp]; rfl

theorem occupied_clear (t : SlotArray MAX_PROCS ℕ) (i : Fin MAX_PROCS) :
    occupied (update t i none) ≤ occupied t := by
  cases hi : t i with
  | none => rw [update_eq_self_iff.mpr hi.symm]
  | some e =>
    have := weight_clear (w := fun _ => 1) hi
    unfold occupied
    omega

theorem occupied_clearAt (k : ℤ) (t : SlotArray MAX_PROCS ℕ) : occupied (clearAt k t) ≤ occupied t := by
  unfold clearAt
  split
  · exact occupied_clear t _
  · exact le_rfl

theorem reaping_births {p e : ℕ} {k : ℤ} {st : Status} {en : Entry} (h : Births s)
    (hp : uncounted (s.stage p) = 0) (hreap : Reaping p k e st en s s') : Births s' := by
  refine h.frame hreap.count (by rw [hreap.procs]) ?_ ?_
  · rw [hreap.table]
    split
    · exact le_rfl
    · exact occupied_clearAt k s.table
  · rw [hreap.stage]
    exact uncounted_update hp

theorem insert_births {p : ℕ} {k : ℤ} (h : Births s) (hc : Cradle s)
    (hp : s.stage p = .forking .admitted) (hins : Inserting p k s s') : Births s' := by
  have hplt := hc.lt (by simp [hp] : s.stage p ≠ .absent)
  constructor
  · -- the new embryo adds nothing, the fork that has created it adds one
    have hnew : total (fun q => uncounted (s'.stage q)) (s.procs.next+1) =
        total (fun q => uncounted (s'.stage q)) s.procs.next := by
      rw [total_succ, hins.stage_new hplt]
      rfl
    have hchange := total_change (f := fun q => uncounted (s'.stage q))
      (g := fun q => uncounted (s.stage q)) hplt (by
        intro q hqp
        by_cases hqn : q = s.procs.next
        · rw [hqn, hins.stage_new hplt, hc.fresh _ le_rfl]
          rfl
        · rw [hins.stage_ne hqp hqn])
    have hself : uncounted (s'.stage p) = 1 := by
      rw [hins.stage_self]
      rfl
    have hbefore : uncounted (s.stage p) = 0 := by
      rw [hp]
      rfl
    rw [hins.count, hins.procs, Store.alloc_next, hnew]
    have := h.count
    omega
  · rw [hins.procs, Store.alloc_next]
    have hlt := h.table
    rcases hins.table with ⟨i, hi, -, ht⟩ | ⟨-, ht⟩
    · have := weight_put (w := fun _ => 1) (firstFree_eq_some.mp hi).1 s.entries.next
      rw [ht]
      unfold occupied at hlt ⊢
      omega
    · rw [ht]
      omega

theorem deliver_uncounted {p c : ℕ} {st born : Stage} (hc : Cradle s)
    (hp : s.stage p = .forking (.counted c)) (hborn : uncounted born = 0) (hst : uncounted st = 0)
    (q : ℕ) : uncounted (update (update s.stage c born) p st q) = uncounted (s.stage q) := by
  have hemb := (hc.embryo p c (by simp [hp, unborn])).1
  by_cases hqp : q = p
  · rw [hqp, update_self, hst, hp]
    rfl
  · rw [update_of_ne hqp]
    by_cases hqc : q = c
    · rw [hqc, update_self, hborn, hemb]
      rfl
    · rw [update_of_ne hqc]

theorem effect_births {a : Action} (h : Births s) (hc : Cradle s) (he : Effect s a s') : Births s' := by
  cases he with
  | stay => exact h
  | move hm => exact h.frame rfl rfl le_rfl (uncounted_update (moves_uncounted hm))
  | insert hp hins => exact insert_births h hc hp hins
  | @countUp p c hp =>
    have hplt := hc.lt (by simp [hp] : s.stage p ≠ .absent)
    refine ⟨?_, h.table⟩
    have hchange := total_change (f := fun q => uncounted (update s.stage p (.forking (.counted c)) q))
      (g := fun q => uncounted (s.stage q)) hplt (by
        intro q hqp
        rw [update_of_ne hqp])
    have hself : uncounted (update s.stage p (.forking (.counted c)) p) = 0 := by
      rw [update_self]
      rfl
    have hbefore : uncounted (s.stage p) = 1 := by
      rw [hp]
      rfl
    have := h.count
    simp only [System.setStage]
    omega
  | abandon hp => exact h.frame rfl rfl le_rfl (deliver_uncounted hc hp rfl (uncounted_home _))
  | load hp => exact h.frame rfl rfl le_rfl (deliver_uncounted hc hp rfl rfl)
  | launch _ hp => exact h.frame rfl rfl le_rfl (deliver_uncounted hc hp rfl rfl)
  | record hp hpcb => exact h.frame rfl rfl le_rfl (uncounted_update (by rw [hp]; rfl))
  | unload hp => exact h.frame rfl rfl le_rfl (uncounted_update (by rw [hp]; rfl))
  | @exit p code pcb i cur en q par s' hex =>
    obtain ⟨-, -, hnext⟩ := unlinked_frame hex.parentLive hex.procs
    obtain ⟨b, -, -, htable⟩ := hex.own
    refine h.frame hex.count hnext ?_ ?_
    · rw [htable]
      split
      · exact occupied_clear s.table i
      · exact le_rfl
    · intro r
      rw [hex.stage]
      by_cases hrp : r = p
      · rw [hrp, update_self, hex.running]
        rfl
      · rw [update_of_ne hrp]
        exact uncounted_wakeOn cur _
  | destroy hp => exact h.frame rfl rfl le_rfl (uncounted_update (by rw [hp]; rfl))
  | noProcess => exact ⟨h.count, h.table⟩
  | noChild => exact ⟨h.count, h.table⟩
  | sleep hask => exact h.frame rfl rfl le_rfl (uncounted_update (by rw [hask.running]; rfl))
  | reap hask _ hreap => exact reaping_births h (by rw [hask.running]; rfl) hreap
  | wake hp hreap => exact reaping_births h (by rw [hp]; rfl) hreap

/-- The kernel's process lives on with pid 0, and no slot of the table is its own. -/
structure Unlisted (s : System) : Prop where
  live : s.procs.live kproc = true
  pid : pidOf s kproc = some 0
  listed : ∀ i e en, s.table i = some e → s.entries.get e = some en → en.pcb ≠ kproc

theorem Unlisted.frame (h : Unlisted s) (hlive : s'.procs.live kproc = s.procs.live kproc)
    (hpid : pidOf s' kproc = pidOf s kproc) (hentries : s'.entries = s.entries)
    (htable : ∀ i e, s'.table i = some e → s.table i = some e) : Unlisted s' := by
  constructor
  · rw [hlive]
    exact h.live
  · rw [hpid]
    exact h.pid
  · intro i e en hi he
    rw [hentries] at he
    exact h.listed i e en (htable i e hi) he

theorem insert_unlisted {p : ℕ} {k : ℤ} (h : Unlisted s) (he : Entered s)
    (hins : Inserting p k s s') : Unlisted s' := by
  have hlt := s.procs.live_lt h.live
  have hkn : kproc ≠ s.procs.next := by omega
  constructor
  · exact hins.live h.live
  · rw [inserted_pid hins hkn]
    exact h.pid
  · intro i e en hi hen
    rw [hins.entries] at hen
    rcases hins.slots hi with hold | rfl
    · have helt := he.slots i e hold
      rw [Store.alloc_get (by omega)] at hen
      exact h.listed i e en hold hen
    · rw [Store.alloc_get_self] at hen
      cases hen
      exact hkn.symm

theorem exit_unlisted {p : ℕ} {code : ℤ} {pcb : Proc} {i : Fin MAX_PROCS} {cur : ℕ} {en : Entry} {q : ℕ}
    {par : Proc} (h : Unlisted s) (he : Entered s) (hex : Exiting p code pcb i cur en q par s s') :
    Unlisted s' := by
  obtain ⟨-, hlive, -⟩ := unlinked_frame hex.parentLive hex.procs
  obtain ⟨b, hown, -, htable⟩ := hex.own
  constructor
  · rw [hlive]
    exact h.live
  · rw [pidOf_unlinked hex.parentLive hex.procs]
    exact h.pid
  · intro j e x hj hx
    have hold : s.table j = some e := by
      rw [htable] at hj
      split at hj
      · by_cases hji : j = i
        · rw [hji, update_self] at hj
          cases hj
        · rwa [update_of_ne hji] at hj
      · exact hj
    by_cases hec : e = cur
    · rw [hec, hown] at hx
      cases hx
      exact h.listed j cur en (hec ▸ hold) hex.entry
    · obtain ⟨y, hy⟩ := he.get (he.slots j e hold)
      obtain ⟨b', hb', -⟩ := hex.others e y hec hy
      rw [hb'] at hx
      cases hx
      exact h.listed j e y hold hy

theorem reaping_unlisted {p e : ℕ} {k : ℤ} {st : Status} {en : Entry} (h : Unlisted s)
    (hreap : Reaping p k e st en s s') : Unlisted s' := by
  refine h.frame (by rw [hreap.procs]) (by rw [pidOf, hreap.procs, pidOf]) hreap.entries ?_
  intro i e' hi
  rw [hreap.table] at hi
  split at hi
  · exact hi
  · exact clearAt_some hi

/-- Some other process is freed. -/
theorem Unlisted.free (h : Unlisted s) {c : ℕ} (hc : c ≠ kproc) (hprocs : s'.procs = s.procs.free c)
    (hentries : s'.entries = s.entries) (htable : s'.table = s.table) : Unlisted s' := by
  refine h.frame ?_ (by simp [pidOf, hprocs]) hentries (fun i e hi => htable ▸ hi)
  rw [hprocs]
  simp [Store.free, update_of_ne hc.symm]

theorem effect_unlisted {a : Action} (h : Unlisted s) (hc : Cradle s) (hent : Entered s)
    (he : Effect s a s') : Unlisted s' := by
  have hsame : ∀ i e, s.table i = some e → s.table i = some e := fun _ _ hi => hi
  cases he with
  | stay => exact h
  | move => exact h.frame rfl rfl rfl hsame
  | insert _ hins => exact insert_unlisted h hent hins
  | countUp => exact h.frame rfl rfl rfl hsame
  | @abandon p c hp =>
    have hemb := (hc.embryo p c (by simp [hp, unborn])).1
    exact h.free (not_kernel hc.kernel (by simp [hemb, menuStage])) rfl rfl rfl
  | load => exact h.frame rfl rfl rfl hsame
  | launch => exact h.frame rfl rfl rfl hsame
  | record hp hpcb => exact h.frame rfl (Store.set_map Proc.pid hpcb (by rfl) kproc) rfl hsame
  | unload hp => exact h.free (not_kernel hc.kernel (by simp [hp, menuStage])) rfl rfl rfl
  | exit hex => exact exit_unlisted h hent hex
  | destroy hp => exact h.free (not_kernel hc.kernel (by simp [hp, menuStage])) rfl rfl rfl
  | noProcess => exact h.frame rfl rfl rfl hsame
  | noChild => exact h.frame rfl rfl rfl hsame
  | sleep => exact h.frame rfl rfl rfl hsame
  | reap _ _ hreap => exact reaping_unlisted h hreap
  | wake _ hreap => exact reaping_unlisted h hreap

end OS161.ProcessBirths
