import OS161.PidLedger

/-!
# What a parent knows of its children

When `sys_fork` returns a pid to a process, that process has the child in its
array, and keeps it there until the child exits. The array always has room for
one more child while a fork is under way, because `p_num_childs` counts at least
the children in it.
-/

set_option autoImplicit false

namespace OS161.ChildLedger

open Function OS161.Slots OS161.Vfs OS161.ProcessTable OS161.ProcessEffects OS161.ProcessSteps
open OS161.ProcessKin OS161.KinSteps OS161.PidLedger

structure Records (s : System) : Prop where
  room : ∀ p pcb, s.procs.get p = some pcb → occupied pcb.childs ≤ pcb.numChilds
  space : ∀ p f pcb, p ≠ kproc → s.stage p = .forking f → s.procs.get p = some pcb →
    pcb.numChilds < MAX_CHILDS
  known : ∀ p k c, s.known p k = some c →
    p ≠ kproc ∧ parentOf s c = some p ∧ pidOf s c = some k ∧ 0 < k
  settled : ∀ p k c, s.known p k = some c → ∀ q, child (s.stage q) ≠ some c
  present : ∀ p k c, s.known p k = some c → s.exits c = none → alive (s.stage c)
  kept : ∀ p k c pcb, s.known p k = some c → s.exits c = none → s.procs.get p = some pcb →
    ∃ i, pcb.childs i = some c
  named : ∀ p pcb i c, s.procs.get p = some pcb → pcb.childs i = some c → ∃ k, s.known p k = some c

variable {s s' : System}

/-- The stages change in a way that does not matter here. -/
theorem Records.frame (h : Records s) (hst : Steady s s')
    (hget : ∀ p pcb, s'.procs.get p = some pcb → s.procs.get p = some pcb)
    (hspace : ∀ p f pcb, p ≠ kproc → s'.stage p = .forking f → s.procs.get p = some pcb →
      pcb.numChilds < MAX_CHILDS)
    (hkid : ∀ p c, child (s'.stage p) = some c → child (s.stage p) = some c)
    (halive : ∀ p k c, s.known p k = some c → alive (s.stage c) → alive (s'.stage c))
    (hknown : s'.known = s.known) (hexits : s'.exits = s.exits) : Records s' := by
  constructor
  · intro p pcb hp
    exact h.room p pcb (hget p pcb hp)
  · intro p f pcb hk hp hpcb
    exact hspace p f pcb hk hp (hget p pcb hpcb)
  · intro p k c hc
    rw [hknown] at hc
    rw [hst.parent, hst.pid]
    exact h.known p k c hc
  · intro p k c hc q hq
    rw [hknown] at hc
    exact h.settled p k c hc q (hkid q c hq)
  · intro p k c hc hx
    rw [hknown] at hc
    rw [hexits] at hx
    exact halive p k c hc (h.present p k c hc hx)
  · intro p k c pcb hc hx hp
    rw [hknown] at hc
    rw [hexits] at hx
    exact h.kept p k c pcb hc hx (hget p pcb hp)
  · intro p pcb i c hp hi
    rw [hknown]
    exact h.named p pcb i c (hget p pcb hp) hi

/-- One process goes on, without starting to create another one. -/
theorem Records.setStage (h : Records s) (hst : Steady s s') {p : ℕ} {st : Stage} (hal : alive st)
    (hkid : ∀ c, child st = some c → child (s.stage p) = some c)
    (hspace : ∀ f pcb, p ≠ kproc → st = .forking f → s.procs.get p = some pcb →
      pcb.numChilds < MAX_CHILDS)
    (hprocs : s'.procs = s.procs) (hstage : s'.stage = update s.stage p st)
    (hknown : s'.known = s.known) (hexits : s'.exits = s.exits) : Records s' := by
  refine h.frame hst (fun q x hq => hprocs ▸ hq) ?_ ?_ ?_ hknown hexits
  · intro q f pcb hk hq hpcb
    rw [hstage] at hq
    by_cases hqp : q = p
    · subst hqp
      rw [update_self] at hq
      exact hspace f pcb hk hq hpcb
    · rw [update_of_ne hqp] at hq
      exact h.space q f pcb hk hq hpcb
  · intro q c hq
    rw [hstage] at hq
    by_cases hqp : q = p
    · subst hqp
      rw [update_self] at hq
      exact hkid c hq
    · rwa [update_of_ne hqp] at hq
  · intro q k c hc halive
    rw [hstage]
    by_cases hcp : c = p
    · rwa [hcp, update_self]
    · rwa [update_of_ne hcp]

/-- A process no one knows of, or that has exited, is freed. -/
theorem Records.free (h : Records s) (hst : Steady s s') {c : ℕ}
    (hno : ∀ p k, s.known p k = some c → ¬alive (s.stage c))
    (hprocs : s'.procs = s.procs.free c) (hstage : s'.stage = update s.stage c .absent)
    (hknown : s'.known = s.known) (hexits : s'.exits = s.exits) : Records s' := by
  have hget : ∀ p pcb, s'.procs.get p = some pcb → s.procs.get p = some pcb := by
    intro p pcb hp
    rw [hprocs] at hp
    exact (Store.free_get_cases hp).2
  have hne : ∀ q, s'.stage q ≠ .absent → s'.stage q = s.stage q := by
    intro q hq
    rw [hstage] at hq ⊢
    by_cases hqc : q = c
    · rw [hqc, update_self] at hq
      exact absurd rfl hq
    · rw [update_of_ne hqc]
  refine h.frame hst hget ?_ ?_ ?_ hknown hexits
  · intro q f pcb hk hq hpcb
    rw [hne q (by simp [hq])] at hq
    exact h.space q f pcb hk hq hpcb
  · intro q d hq
    rwa [hne q (by intro hx; rw [hx] at hq; cases hq)] at hq
  · intro q k d hd hal
    have hdc : d ≠ c := by
      rintro rfl
      exact hno q k hd hal
    rwa [hstage, update_of_ne hdc]

/-- A fork is done with the process it has created, which no one knows of yet. -/
theorem Records.deliver (h : Records s) (hst : Steady s s') {p c : ℕ} {st born : Stage}
    (hp : s.stage p = .forking (.counted c)) (hal : alive st) (hborn : ∀ f, born ≠ .forking f)
    (hkid : ∀ d, child st = some d → d = c)
    (hget : ∀ q pcb, s'.procs.get q = some pcb → s.procs.get q = some pcb)
    (hstage : s'.stage = update (update s.stage c born) p st)
    (hknown : s'.known = s.known) (hexits : s'.exits = s.exits) : Records s' := by
  have hmake : child (s.stage p) = some c := by simp [hp, child, Forking.child]
  have hfork : ∀ q f, s'.stage q = .forking f →
      (q = p ∧ st = .forking f) ∨ (q ≠ p ∧ s.stage q = .forking f) := by
    intro q f hq
    rw [hstage] at hq
    by_cases hqp : q = p
    · rw [hqp, update_self] at hq
      exact .inl ⟨hqp, hq⟩
    · rw [update_of_ne hqp] at hq
      by_cases hqc : q = c
      · rw [hqc, update_self] at hq
        exact absurd hq (hborn f)
      · rw [update_of_ne hqc] at hq
        exact .inr ⟨hqp, hq⟩
  refine h.frame hst hget ?_ ?_ ?_ hknown hexits
  · intro q f pcb hk hq hpcb
    rcases hfork q f hq with ⟨rfl, -⟩ | ⟨-, hold⟩
    · exact h.space q _ pcb hk hp hpcb
    · exact h.space q f pcb hk hold hpcb
  · intro q d hq
    cases hs : s'.stage q with
    | forking f =>
      rw [hs] at hq
      rcases hfork q f hs with ⟨rfl, hst⟩ | ⟨-, hold⟩
      · rw [hkid d (hst ▸ hq), hmake]
      · rwa [hold]
    | _ =>
      rw [hs] at hq
      cases hq
  · intro q k d hd hald
    have hdc : d ≠ c := by
      rintro rfl
      exact h.settled q k d hd p hmake
    rw [hstage]
    by_cases hdp : d = p
    · rwa [hdp, update_self]
    · rwa [update_of_ne hdp, update_of_ne hdc]

theorem insert_records {p : ℕ} {k : ℤ} (h : Records s) (hb : Books s)
    (hp : s.stage p = .forking .admitted) (hins : Inserting p k s s') : Records s' := by
  have hplt := hb.kin.lt (by simp [hp] : s.stage p ≠ .absent)
  have hold : ∀ q l c, s.known q l = some c → c < s.procs.next := by
    intro q l c hc
    by_contra hge
    have hpar := (h.known q l c hc).2.1
    rw [parentOf, s.procs.cell_fresh c (by omega)] at hpar
    cases hpar
  constructor
  · intro q x hq
    rcases hins.get_cases hq with ⟨-, hempty⟩ | ⟨-, hq'⟩
    · rw [hempty]
      simp [occupied]
    · exact h.room q x hq'
  · intro q f x hk hq hx
    rcases hins.get_cases hx with ⟨rfl, -⟩ | ⟨hqn, hx'⟩
    · rw [hins.stage_new hplt] at hq
      cases hq
    · by_cases hqp : q = p
      · exact h.space q .admitted x hk (hqp ▸ hp) hx'
      · rw [hins.stage_ne hqp hqn] at hq
        exact h.space q f x hk hq hx'
  · intro q l c hc
    rw [hins.known] at hc
    have hcn : c ≠ s.procs.next := Nat.ne_of_lt (hold q l c hc)
    rw [inserted_parent hins hcn, inserted_pid hins hcn]
    exact h.known q l c hc
  · intro q l c hc r hr
    rw [hins.known] at hc
    rcases inserted_child hins hplt hr with ⟨-, rfl⟩ | ⟨hsame, -⟩
    · exact absurd (hold q l _ hc) (lt_irrefl _)
    · rw [hsame] at hr
      exact h.settled q l c hc r hr
  · intro q l c hc hx
    rw [hins.known] at hc
    rw [hins.exits] at hx
    exact (inserted_alive hins hp (Nat.ne_of_lt (hold q l c hc))).mpr (h.present q l c hc hx)
  · intro q l c x hc hx hq
    rw [hins.known] at hc
    rw [hins.exits] at hx
    rcases hins.get_cases hq with ⟨rfl, -⟩ | ⟨-, hq'⟩
    · -- a parent is older than its child
      have hlt := hb.older c _ (h.known _ l c hc).2.1
      have hclt := hold _ l c hc
      omega
    · exact h.kept q l c x hc hx hq'
  · intro q x i c hq hi
    rw [hins.known]
    rcases hins.get_cases hq with ⟨-, hempty⟩ | ⟨-, hq'⟩
    · rw [hempty] at hi
      cases hi
    · exact h.named q x i c hq' hi

/-- Slot 0 is not the slot of a forked process. -/
theorem own_pos {c p : ℕ} {i : Fin MAX_PROCS} {e : ℕ} {en : Entry} (h : Books s)
    (hown : Own s c i e en) (hpar : parentOf s c = some p) (hp : p ≠ kproc) : (0 : ℤ) < i.val := by
  have hi : i ≠ 0 := by
    rintro rfl
    rcases h.zero with ⟨-, hempty⟩ | ⟨f, fn, hslot, hfn, -, hker⟩
    · have := hown.slot
      rw [hempty] at this
      cases this
    · rw [hown.slot] at hslot
      cases hslot
      rw [hown.entry] at hfn
      cases hfn
      rw [hown.pcb, hpar] at hker
      exact hp (Option.some.inj hker)
  have := Fin.pos_iff_ne_zero.mpr hi
  exact_mod_cast this

/-- A process that forks has a free slot for the child. -/
theorem Records.free_childs (h : Records s) {p : ℕ} {f : Forking} {pcb : Proc} (hpk : p ≠ kproc)
    (hp : s.stage p = .forking f) (hpcb : s.procs.get p = some pcb) : ∃ a, firstFree pcb.childs = some a := by
  cases hf : firstFree pcb.childs with
  | some a => exact ⟨a, rfl⟩
  | none =>
    have hfull := occupied_full.mpr (firstFree_eq_none.mp hf)
    have hroom := h.room p pcb hpcb
    have hlt := h.space p f pcb hpk hp hpcb
    omega

/-- What is known after one more pid has been told. -/
theorem told_cases {known : ℕ → ℤ → Option ℕ} {p q c d : ℕ} {k l : ℤ}
    (hd : update known p (update (known p) k (some c)) q l = some d) :
    (q = p ∧ l = k ∧ d = c) ∨ known q l = some d := by
  by_cases hqp : q = p
  · subst hqp
    rw [update_self] at hd
    by_cases hl : l = k
    · rw [hl, update_self] at hd
      exact .inl ⟨rfl, hl, (Option.some.inj hd).symm⟩
    · rw [update_of_ne hl] at hd
      exact .inr hd
  · rw [update_of_ne hqp] at hd
    exact .inr hd

/-- Two living processes do not have one pid. -/
theorem pid_unique {c d p : ℕ} {k : ℤ} {i : Fin MAX_PROCS} {e : ℕ} {en : Entry} (hb : Books s)
    (hald : alive (s.stage d)) (hpard : parentOf s d = some p) (hpid : pidOf s d = some k)
    (hown : Own s c i e en) (hk : k = i.val) : d = c := by
  obtain ⟨i', e', en', hown'⟩ := hb.own_child hpard hald
  have hii : i = i' := own_pid hown' (by rw [hpid, hk])
  subst hii
  exact own_unique hown' hown

theorem record_records {p c : ℕ} {junk : ℤ} {pcb : Proc} (h : Records s) (hb : Books s)
    (hst : Steady s s') (hp : s.stage p = .forking (.started c)) (hpcb : s.procs.get p = some pcb)
    (hprocs : s'.procs = s.procs.set p (adopted c pcb)) (hstage : s'.stage = update s.stage p .running)
    (hknown : s'.known = update s.known p (update (s.known p) (readPid c junk s) (some c)))
    (hexits : s'.exits = s.exits) : Records s' := by
  have hmake : child (s.stage p) = some c := by simp [hp, child, Forking.child]
  obtain ⟨-, hal, hpar, hno⟩ := hb.kin.making p c hmake
  have hpk : p ≠ kproc := not_kernel hb.kin.kernel (by simp [hp, menuStage])
  obtain ⟨i, e, en, hown⟩ := hb.own_child hpar hal
  have hpid : pidOf s c = some (readPid c junk s) := by
    obtain ⟨x, hx⟩ := hb.kin.get hal.1
    rw [readPid, hx, pidOf, (Store.get_some.mp hx).2]
    rfl
  have hki : readPid c junk s = i.val := Option.some.inj (hpid.symm.trans hown.pid)
  obtain ⟨a, ha⟩ := h.free_childs hpk hp hpcb
  have hanone := (firstFree_eq_some.mp ha).1
  have hadopt : adopted c pcb =
      { pcb with numChilds := pcb.numChilds+1, childs := update pcb.childs a (some c) } := by
    simp [adopted, ha]
  have hget : ∀ q x, s'.procs.get q = some x →
      (q = p ∧ x = adopted c pcb) ∨ (q ≠ p ∧ s.procs.get q = some x) := by
    intro q x hq
    rw [hprocs] at hq
    exact Store.set_get_cases hpcb hq
  have hrecs : ∀ q l d, s'.known q l = some d →
      (q = p ∧ l = readPid c junk s ∧ d = c) ∨ s.known q l = some d := by
    intro q l d hd
    rw [hknown] at hd
    exact told_cases hd
  constructor
  · intro q x hq
    rcases hget q x hq with ⟨rfl, rfl⟩ | ⟨-, hq'⟩
    · have hput : occupied (update pcb.childs a (some c)) = occupied pcb.childs + 1 :=
        weight_put (w := fun _ => 1) hanone c
      have hroom := h.room q pcb hpcb
      rw [hadopt]
      simp only
      omega
    · exact h.room q x hq'
  · intro q f x hk hq hx
    have hqp : q ≠ p := by
      rintro rfl
      rw [hstage, update_self] at hq
      cases hq
    rcases hget q x hx with ⟨he, -⟩ | ⟨-, hx'⟩
    · exact absurd he hqp
    · rw [hstage, update_of_ne hqp] at hq
      exact h.space q f x hk hq hx'
  · intro q l d hd
    rw [hst.parent, hst.pid]
    rcases hrecs q l d hd with ⟨rfl, rfl, rfl⟩ | hold
    · refine ⟨hpk, hpar, hpid, ?_⟩
      rw [hki]
      exact own_pos hb hown hpar hpk
    · exact h.known q l d hold
  · intro q l d hd r hr
    obtain ⟨hrp, hr'⟩ := child_running (hstage ▸ hr)
    rcases hrecs q l d hd with ⟨rfl, rfl, rfl⟩ | hold
    · exact hrp (kin_maker hb.kin hmake hr')
    · exact h.settled q l d hold r hr'
  · intro q l d hd hx
    rw [hexits] at hx
    rw [hstage]
    rcases hrecs q l d hd with ⟨rfl, rfl, rfl⟩ | hold
    · exact alive_running hal
    · exact alive_running (h.present q l d hold hx)
  · intro q l d x hd hx hq
    rw [hexits] at hx
    rcases hget q x hq with ⟨rfl, rfl⟩ | ⟨hqp, hq'⟩
    · rw [hadopt]
      rcases hrecs q l d hd with ⟨-, -, rfl⟩ | hold
      · exact ⟨a, by simp⟩
      · obtain ⟨j, hj⟩ := h.kept q l d pcb hold hx hpcb
        have hja : j ≠ a := by
          rintro rfl
          rw [hanone] at hj
          cases hj
        exact ⟨j, by simpa [update_of_ne hja] using hj⟩
    · rcases hrecs q l d hd with ⟨he, -⟩ | hold
      · exact absurd he hqp
      · exact h.kept q l d x hold hx hq'
  · intro q x j d hq hj
    rcases hget q x hq with ⟨rfl, rfl⟩ | ⟨hqp, hq'⟩
    · rcases adopted_childs hj with ⟨rfl, -⟩ | hold
      · exact ⟨readPid d junk s, by simp [hknown]⟩
      · obtain ⟨l, hl⟩ := h.named q pcb j d hpcb hold
        refine ⟨l, ?_⟩
        have hne : l ≠ readPid c junk s := by
          rintro rfl
          obtain ⟨hald, hpard, -⟩ := hb.kin.childs q pcb j d hpcb hold
          have hdc := pid_unique hb hald hpard (h.known q _ d hl).2.2.1 hown hki
          exact hno pcb j hpcb (hdc ▸ hold)
        rw [hknown, update_self, update_of_ne hne, hl]
    · obtain ⟨l, hl⟩ := h.named q x j d hq' hj
      exact ⟨l, by rw [hknown, update_of_ne hqp, hl]⟩

theorem exit_records {p : ℕ} {code : ℤ} {pcb : Proc} {i : Fin MAX_PROCS} {cur : ℕ} {en : Entry} {q : ℕ}
    {par : Proc} (h : Records s) (hst : Steady s s') (hex : Exiting p code pcb i cur en q par s s') :
    Records s' := by
  have hget : ∀ r x, s'.procs.get r = some x → ∃ y, s.procs.get r = some y ∧
      x.numChilds = y.numChilds ∧ (∀ j c, x.childs j = some c → y.childs j = some c) ∧
      ((∀ j, x.childs j = y.childs j) ∨ ∃ j, y.childs j = some p ∧ x.childs = update y.childs j none) := by
    intro r x hr
    rw [hex.procs] at hr
    obtain ⟨y, hy, -, -, hnum, hsub, hcase⟩ := unlinked_get hex.parentLive hr
    refine ⟨y, hy, hnum, hsub, ?_⟩
    rcases hcase with hsame | ⟨-, hcut⟩
    · exact .inl hsame
    · exact .inr hcut
  have hback : ∀ r, (∃ f, s'.stage r = .forking f) → s'.stage r = s.stage r := by
    rintro r ⟨f, hr⟩
    rw [hex.stage] at hr ⊢
    by_cases hrp : r = p
    · rw [hrp, update_self] at hr
      cases hr
    · rw [update_of_ne hrp] at hr ⊢
      rcases wakeOn_cases cur (s.stage r) with hsame | ⟨k, t, -, hw⟩
      · exact hsame
      · rw [hw] at hr
        cases hr
  constructor
  · intro r x hr
    obtain ⟨y, hy, hnum, -, hcase⟩ := hget r x hr
    have hroom := h.room r y hy
    rw [hnum]
    rcases hcase with hsame | ⟨j, hj, hcut⟩
    · rwa [show x.childs = y.childs from funext hsame]
    · have hclear := weight_clear (w := fun _ => 1) hj
      rw [hcut]
      unfold occupied at hroom ⊢
      omega
  · intro r f x hk hr hx
    obtain ⟨y, hy, hnum, -⟩ := hget r x hx
    rw [hnum]
    rw [hback r ⟨f, hr⟩] at hr
    exact h.space r f y hk hr hy
  · intro r k c hc
    rw [hex.known] at hc
    rw [hst.parent, hst.pid]
    exact h.known r k c hc
  · intro r k c hc t ht
    rw [hex.known] at hc
    have hold : s'.stage t = s.stage t := by
      apply hback t
      cases hst : s'.stage t with
      | forking f => exact ⟨f, rfl⟩
      | _ =>
        rw [hst] at ht
        cases ht
    rw [hold] at ht
    exact h.settled r k c hc t ht
  · intro r k c hc hx
    rw [hex.known] at hc
    rw [hex.exits] at hx
    have hcp : c ≠ p := by
      rintro rfl
      rw [update_self] at hx
      cases hx
    rw [update_of_ne hcp] at hx
    rw [hex.stage, update_of_ne hcp]
    have hal := h.present r k c hc hx
    rcases wakeOn_cases cur (s.stage c) with hsame | ⟨l, t, -, hw⟩
    · rwa [hsame]
    · rw [hw]
      simp [alive]
  · intro r k c x hc hx hr
    rw [hex.known] at hc
    rw [hex.exits] at hx
    have hcp : c ≠ p := by
      rintro rfl
      rw [update_self] at hx
      cases hx
    rw [update_of_ne hcp] at hx
    obtain ⟨y, hy, -, -, hcase⟩ := hget r x hr
    obtain ⟨j, hj⟩ := h.kept r k c y hc hx hy
    refine ⟨j, ?_⟩
    rcases hcase with hsame | ⟨l, hl, hcut⟩
    · rw [hsame, hj]
    · have hjl : j ≠ l := by
        rintro rfl
        rw [hj] at hl
        exact hcp (Option.some.inj hl)
      rw [hcut, update_of_ne hjl, hj]
  · intro r x j c hr hj
    obtain ⟨y, hy, -, hsub, -⟩ := hget r x hr
    rw [hex.known]
    exact h.named r y j c hy (hsub j c hj)

theorem moves_space {p : ℕ} {st : Stage} (h : Records s) (hm : Moves s p st) (f : Forking) (pcb : Proc)
    (hk : p ≠ kproc) (hst : st = .forking f) (hpcb : s.procs.get p = some pcb) :
    pcb.numChilds < MAX_CHILDS := by
  cases hm with
  | runprogram => exact absurd rfl hk
  | fork _ hget hlt =>
    rw [hpcb] at hget
    cases hget
    exact hlt
  | admitted hp => exact h.space p _ pcb hk hp hpcb
  | refused => cases hst
  | noMemory => simp [home, hk] at hst
  | loaded => cases hst

theorem effect_records {a : Action} (h : Records s) (hb : Books s) (he : Effect s a s') :
    Records s' := by
  rcases effect_steady hb.kin he with ⟨p, k, junk, -, hp, hins⟩ | hst
  · exact insert_records h hb hp hins
  have hsame : ∀ q x, s.procs.get q = some x → s.procs.get q = some x := fun _ _ hq => hq
  have hrun : alive .running ∧ child .running = none := by simp [alive, child]
  cases he with
  | stay => exact h
  | move hm =>
    obtain ⟨-, -, hplain, -⟩ := moves_plain hb.kin.kernel hm
    refine h.setStage hst hplain.1 ?_ (moves_space h hm) rfl rfl rfl rfl
    intro c hc
    rw [hplain.2.2] at hc
    cases hc
  | insert hp hins => exact insert_records h hb hp hins
  | @countUp p c hp =>
    have hal : alive (.forking (.counted c)) := by simp [alive]
    refine h.setStage (p := p) hst hal ?_ ?_ rfl rfl rfl rfl
    · intro d hd
      rw [hp]
      exact hd
    · intro f pcb hk _ hpcb
      exact h.space p _ pcb hk hp hpcb
  | @abandon p c hp =>
    obtain ⟨hal, -, hkid, -⟩ := home_plain p
    refine h.deliver hst hp hal (by simp) (fun d hd => by rw [hkid] at hd; cases hd) ?_ rfl rfl rfl
    intro q x hq
    exact (Store.free_get_cases hq).2
  | load hp =>
    have hmenu : alive .menu := by simp [alive]
    exact h.deliver hst hp hmenu (by simp) (by simp [child]) hsame rfl rfl rfl
  | @launch p c _ hp =>
    have hal : alive (.forking (.started c)) := by simp [alive]
    exact h.deliver hst hp hal (by simp) (by simp [child, Forking.child]) hsame rfl rfl rfl
  | record hp hpcb => exact record_records h hb hst hp hpcb rfl rfl rfl rfl
  | @unload p hp =>
    refine h.free hst (c := p) ?_ rfl rfl rfl rfl
    intro q k hq
    obtain ⟨hqk, hpar, -⟩ := h.known q k p hq
    rw [hb.kin.loading p hp] at hpar
    exact absurd (Option.some.inj hpar).symm hqk
  | exit hex => exact exit_records h hst hex
  | destroy hp => exact h.free hst (fun _ _ _ hal => by simp [hp, alive] at hal) rfl rfl rfl rfl
  | noProcess => exact ⟨h.room, h.space, h.known, h.settled, h.present, h.kept, h.named⟩
  | noChild => exact ⟨h.room, h.space, h.known, h.settled, h.present, h.kept, h.named⟩
  | @sleep p k st i e pcb en hask =>
    have hal : alive (.waiting k e st) := by simp [alive]
    exact h.setStage hst hal (by simp [child]) (by simp) rfl rfl rfl rfl
  | reap _ _ hreap =>
    exact h.setStage hst hrun.1 (by simp [child]) (by simp) hreap.procs hreap.stage hreap.known hreap.exits
  | wake _ hreap =>
    exact h.setStage hst hrun.1 (by simp [child]) (by simp) hreap.procs hreap.stage hreap.known hreap.exits

end OS161.ChildLedger
