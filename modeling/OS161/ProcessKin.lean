import OS161.ProcessSteps

/-!
# Parents and children

The pointers between processes: an array of children holds processes that
have not exited, each exactly once and each with the holder as its parent.
This survives every action except one: a child that exits before its parent's
fork has recorded it, for it is entered into the array afterwards.
-/

set_option autoImplicit false

namespace OS161.ProcessKin

open Function OS161.Slots OS161.Vfs OS161.ProcessTable OS161.ProcessEffects OS161.ProcessSteps

/-- Neither gone nor past `sys__exit`. -/
def alive (st : Stage) : Prop := st ≠ .absent ∧ st ≠ .exited
  deriving Decidable

/-- Has come as far as user mode, or further. -/
def begun (st : Stage) : Prop := st ≠ .embryo ∧ st ≠ .loading

/-- The process a fork in progress has created. -/
def Forking.child : Forking → Option ℕ
  | .created c => some c
  | .counted c => some c
  | .started c => some c
  | _ => none

def child : Stage → Option ℕ
  | .forking f => Forking.child f
  | _ => none

/-- The process a fork in progress has created and not yet started. -/
def unborn : Stage → Option ℕ
  | .forking (.created c) => some c
  | .forking (.counted c) => some c
  | _ => none

/-- The stages of the menu's thread. -/
def menuStage : Stage → Prop
  | .menu => True
  | .forking .admitted => True
  | .forking (.created _) => True
  | .forking (.counted _) => True
  | _ => False

def parentOf (s : System) (c : ℕ) : Option ℕ := (s.procs.cell c).bind Proc.parent

def pidOf (s : System) (c : ℕ) : Option ℤ := (s.procs.cell c).map Proc.pid

structure Kin (s : System) : Prop where
  kernel : menuStage (s.stage kproc)
  fresh : ∀ c, s.procs.next ≤ c → s.stage c = .absent
  live : ∀ c, s.stage c ≠ .absent → s.procs.live c = true
  parent : ∀ c, c ≠ kproc → alive (s.stage c) →
    ∃ q, parentOf s c = some q ∧ q < s.procs.next ∧ begun (s.stage q)
  childs : ∀ p pcb i c, s.procs.get p = some pcb → pcb.childs i = some c →
    alive (s.stage c) ∧ parentOf s c = some p ∧ ∀ j, pcb.childs j = some c → j = i
  making : ∀ p c, child (s.stage p) = some c → c ≠ kproc ∧ alive (s.stage c) ∧
    parentOf s c = some p ∧ ∀ pcb i, s.procs.get p = some pcb → pcb.childs i ≠ some c
  embryo : ∀ p c, unborn (s.stage p) = some c → s.stage c = .embryo
  loading : ∀ c, s.stage c = .loading → parentOf s c = some kproc
  barren : ∀ pcb i, s.procs.get kproc = some pcb → pcb.childs i = none

variable {s s' : System}

theorem unborn_child {st : Stage} {c : ℕ} (h : unborn st = some c) : child st = some c := by
  cases st with
  | forking f => cases f <;> simp_all [unborn, child, Forking.child]
  | _ => cases h

theorem child_begun {st : Stage} {c : ℕ} (h : child st = some c) : alive st ∧ begun st := by
  cases st with
  | forking f => exact ⟨⟨by simp, by simp⟩, by simp, by simp⟩
  | _ => cases h

theorem Kin.lt (h : Kin s) {c : ℕ} (hc : s.stage c ≠ .absent) : c < s.procs.next := by
  by_contra hge
  exact hc (h.fresh c (by omega))

theorem Kin.get (h : Kin s) {p : ℕ} (hp : s.stage p ≠ .absent) : ∃ pcb, s.procs.get p = some pcb := by
  obtain ⟨pcb, hpcb⟩ := s.procs.live_cell p (h.live p hp)
  exact ⟨pcb, Store.get_some.mpr ⟨h.live p hp, hpcb⟩⟩

/-- One process changes its stage and nothing else that matters here. -/
theorem Kin.setStage (h : Kin s) {p : ℕ} {st : Stage} (hp : alive (s.stage p)) (hst : alive st)
    (hb : begun (s.stage p) → begun st) (hkid : ∀ c, child st = some c → child (s.stage p) = some c)
    (hunborn : ∀ c, unborn st = some c → unborn (s.stage p) = some c)
    (hemb : ∀ q, unborn (s.stage q) ≠ some p) (hload : st = .loading → parentOf s p = some kproc)
    (hmenu : p = kproc → menuStage st)
    (hprocs : s'.procs = s.procs) (hstage : s'.stage = update s.stage p st) : Kin s' := by
  have hpar : ∀ c, parentOf s' c = parentOf s c := by
    intro c
    simp [parentOf, hprocs]
  have hself : s'.stage p = st := by simp [hstage]
  have hne : ∀ q, q ≠ p → s'.stage q = s.stage q := by
    intro q hq
    simp [hstage, update_of_ne hq]
  have halive : ∀ q, alive (s.stage q) → alive (s'.stage q) := by
    intro q hq
    by_cases hqp : q = p
    · rw [hqp, hself]
      exact hst
    · rwa [hne q hqp]
  have halive' : ∀ q, alive (s'.stage q) → alive (s.stage q) := by
    intro q hq
    by_cases hqp : q = p
    · rw [hqp]
      exact hp
    · rwa [hne q hqp] at hq
  have hbegun : ∀ q, begun (s.stage q) → begun (s'.stage q) := by
    intro q hq
    by_cases hqp : q = p
    · rw [hqp, hself]
      exact hb (hqp ▸ hq)
    · rwa [hne q hqp]
  constructor
  · by_cases hk : kproc = p
    · rw [hk, hself]
      exact hmenu hk.symm
    · rw [hne _ hk]
      exact h.kernel
  · intro c hc
    rw [hprocs] at hc
    have hcp : c ≠ p := by
      intro he
      have := h.lt hp.1
      omega
    rw [hne c hcp]
    exact h.fresh c hc
  · intro c hc
    rw [hprocs]
    by_cases hcp : c = p
    · rw [hcp]
      exact h.live p hp.1
    · rw [hne c hcp] at hc
      exact h.live c hc
  · intro c hk hc
    obtain ⟨q, hq, hlt, hbq⟩ := h.parent c hk (halive' c hc)
    exact ⟨q, by rw [hpar, hq], by rw [hprocs]; exact hlt, hbegun q hbq⟩
  · intro r pcb i c hr hi
    rw [hprocs] at hr
    obtain ⟨h1, h2, h3⟩ := h.childs r pcb i c hr hi
    exact ⟨halive c h1, by rw [hpar, h2], h3⟩
  · intro r c hr
    have hold : child (s.stage r) = some c := by
      by_cases hrp : r = p
      · rw [hrp, hself] at hr
        rw [hrp]
        exact hkid c hr
      · rwa [hne r hrp] at hr
    obtain ⟨h1, h2, h3, h4⟩ := h.making r c hold
    refine ⟨h1, halive c h2, by rw [hpar, h3], ?_⟩
    intro pcb i hr'
    rw [hprocs] at hr'
    exact h4 pcb i hr'
  · intro r c hr
    have hold : unborn (s.stage r) = some c := by
      by_cases hrp : r = p
      · rw [hrp, hself] at hr
        rw [hrp]
        exact hunborn c hr
      · rwa [hne r hrp] at hr
    have hcp : c ≠ p := by
      intro he
      rw [he] at hold
      exact hemb r hold
    rw [hne c hcp, h.embryo r c hold]
  · intro c hc
    rw [hpar]
    by_cases hcp : c = p
    · rw [hcp, hself] at hc
      rw [hcp]
      exact hload hc
    · rw [hne c hcp] at hc
      exact h.loading c hc
  · intro pcb i hk
    rw [hprocs] at hk
    exact h.barren pcb i hk

theorem Kin.not_unborn (h : Kin s) {p : ℕ} (hp : s.stage p ≠ .embryo) (q : ℕ) :
    unborn (s.stage q) ≠ some p := fun hq => hp (h.embryo q p hq)

/-- A process that no one holds as a child, or is about to, exits or goes. -/
theorem Kin.leave (h : Kin s) {c : ℕ} {st : Stage} (hk : c ≠ kproc)
    (hno : ∀ p, child (s.stage p) ≠ some c)
    (hchild : ∀ p pcb i, s.procs.get p = some pcb → pcb.childs i ≠ some c)
    (hst : st = .absent ∧ s'.procs = s.procs.free c ∨
      st = .exited ∧ s'.procs = s.procs ∧ s.stage c ≠ .absent)
    (hstage : s'.stage = update s.stage c st) : Kin s' := by
  have hgone : ¬alive st ∧ child st = none ∧ unborn st = none ∧ begun st ∧ st ≠ .loading := by
    rcases hst with ⟨rfl, -⟩ | ⟨rfl, -⟩ <;> simp [alive, child, unborn, begun]
  obtain ⟨hdead, hnokid, hnounborn, hbst, hnoload⟩ := hgone
  have hpar : ∀ d, parentOf s' d = parentOf s d := by
    intro d
    rcases hst with ⟨-, hprocs⟩ | ⟨-, hprocs, -⟩ <;> simp [parentOf, hprocs]
  have hnext : s'.procs.next = s.procs.next := by
    rcases hst with ⟨-, hprocs⟩ | ⟨-, hprocs, -⟩ <;> simp [hprocs]
  have hself : s'.stage c = st := by simp [hstage]
  have hne : ∀ q, q ≠ c → s'.stage q = s.stage q := by
    intro q hq
    simp [hstage, update_of_ne hq]
  have hget : ∀ p pcb, s'.procs.get p = some pcb → s.procs.get p = some pcb := by
    intro p pcb hp
    rcases hst with ⟨-, hprocs⟩ | ⟨-, hprocs, -⟩
    · rw [hprocs] at hp
      exact (Store.free_get_cases hp).2
    · rwa [hprocs] at hp
  have hold : ∀ p, alive (s'.stage p) → p ≠ c ∧ alive (s.stage p) := by
    intro p hp
    by_cases hpc : p = c
    · rw [hpc, hself] at hp
      exact absurd hp hdead
    · rw [hne p hpc] at hp
      exact ⟨hpc, hp⟩
  constructor
  · rw [hne _ (Ne.symm hk)]
    exact h.kernel
  · intro d hd
    rw [hnext] at hd
    by_cases hdc : d = c
    · rw [hdc, hself]
      rcases hst with ⟨hst, -⟩ | ⟨-, -, hpres⟩
      · exact hst
      · exact absurd (h.fresh c (hdc ▸ hd)) hpres
    · rw [hne d hdc]
      exact h.fresh d hd
  · intro d hd
    rcases hst with ⟨rfl, hprocs⟩ | ⟨-, hprocs, hpres⟩
    · have hdc : d ≠ c := fun he => hd (he ▸ hself)
      rw [hne d hdc] at hd
      rw [hprocs]
      simpa [Store.free, update_of_ne hdc] using h.live d hd
    · rw [hprocs]
      by_cases hdc : d = c
      · exact hdc ▸ h.live c hpres
      · rw [hne d hdc] at hd
        exact h.live d hd
  · intro d hdk hd
    obtain ⟨hdc, hd'⟩ := hold d hd
    obtain ⟨q, hq, hlt, hb⟩ := h.parent d hdk hd'
    refine ⟨q, by rw [hpar, hq], by rw [hnext]; exact hlt, ?_⟩
    by_cases hqc : q = c
    · rwa [hqc, hself]
    · rwa [hne q hqc]
  · intro p pcb i d hp hi
    have hp' := hget p pcb hp
    obtain ⟨h1, h2, h3⟩ := h.childs p pcb i d hp' hi
    have hdc : d ≠ c := by
      intro he
      exact hchild p pcb i hp' (he ▸ hi)
    exact ⟨by rwa [hne d hdc], by rw [hpar, h2], h3⟩
  · intro p d hp
    have hpc : p ≠ c := by
      intro he
      rw [he, hself, hnokid] at hp
      cases hp
    rw [hne p hpc] at hp
    obtain ⟨h1, h2, h3, h4⟩ := h.making p d hp
    have hdc : d ≠ c := by
      intro he
      exact hno p (he ▸ hp)
    exact ⟨h1, by rwa [hne d hdc], by rw [hpar, h3], fun pcb i hg => h4 pcb i (hget p pcb hg)⟩
  · intro p d hp
    have hpc : p ≠ c := by
      intro he
      rw [he, hself, hnounborn] at hp
      cases hp
    rw [hne p hpc] at hp
    have hdc : d ≠ c := by
      intro he
      exact hno p (he ▸ unborn_child hp)
    rw [hne d hdc, h.embryo p d hp]
  · intro d hd
    have hdc : d ≠ c := by
      intro he
      rw [he, hself] at hd
      exact hnoload hd
    rw [hne d hdc] at hd
    rw [hpar]
    exact h.loading d hd
  · intro pcb i hg
    exact h.barren pcb i (hget kproc pcb hg)

theorem Kin.kernel_lt (h : Kin s) : kproc < s.procs.next := by
  apply h.lt
  intro hk
  have := h.kernel
  rw [hk] at this
  exact this

section Inserted

variable {p : ℕ} {k : ℤ}

theorem inserted_parent_new (hins : Inserting p k s s') : parentOf s' s.procs.next = some p := by
  simp [parentOf, hins.procs]

theorem inserted_parent (hins : Inserting p k s s') {c : ℕ} (hc : c ≠ s.procs.next) :
    parentOf s' c = parentOf s c := by
  simp [parentOf, hins.procs, Store.alloc_cell hc]

theorem inserted_pid (hins : Inserting p k s s') {c : ℕ} (hc : c ≠ s.procs.next) :
    pidOf s' c = pidOf s c := by
  simp [pidOf, hins.procs, Store.alloc_cell hc]

theorem inserted_alive (hins : Inserting p k s s') (hp : s.stage p = .forking .admitted) {c : ℕ}
    (hc : c ≠ s.procs.next) : alive (s'.stage c) ↔ alive (s.stage c) := by
  by_cases hcp : c = p
  · simp [hcp, hins.stage_self, hp, alive]
  · rw [hins.stage_ne hcp hc]

theorem inserted_begun (hins : Inserting p k s s') {c : ℕ} (hc : c ≠ s.procs.next)
    (hb : begun (s.stage c)) : begun (s'.stage c) := by
  by_cases hcp : c = p
  · simp [hcp, hins.stage_self, begun]
  · rwa [hins.stage_ne hcp hc]

/-- The fork that creates a process is the only one that makes a new child. -/
theorem inserted_child (hins : Inserting p k s s') (hp : p < s.procs.next) {r c : ℕ}
    (hr : child (s'.stage r) = some c) : (r = p ∧ c = s.procs.next) ∨
      (s'.stage r = s.stage r ∧ r ≠ s.procs.next) := by
  by_cases hrp : r = p
  · rw [hrp, hins.stage_self] at hr
    cases hr
    exact .inl ⟨hrp, rfl⟩
  · by_cases hrn : r = s.procs.next
    · rw [hrn, hins.stage_new hp] at hr
      cases hr
    · exact .inr ⟨hins.stage_ne hrp hrn, hrn⟩

theorem insert_kin (h : Kin s) (hp : s.stage p = .forking .admitted) (hins : Inserting p k s s') :
    Kin s' := by
  have hpalive : s.stage p ≠ .absent := by simp [hp]
  have hplt := h.lt hpalive
  have hklt := h.kernel_lt
  have hnext : s'.procs.next = s.procs.next+1 := by rw [hins.procs, Store.alloc_next]
  constructor
  · by_cases hk : kproc = p
    · rw [hk, hins.stage_self]
      trivial
    · rw [hins.stage_ne hk (by omega)]
      exact h.kernel
  · intro c hc
    rw [hins.stage_ne (by omega) (by omega)]
    exact h.fresh c (by omega)
  · intro c hc
    by_cases hcn : c = s.procs.next
    · simp [hins.procs, Store.alloc, hcn]
    · apply hins.live
      by_cases hcp : c = p
      · exact hcp ▸ h.live p hpalive
      · rw [hins.stage_ne hcp hcn] at hc
        exact h.live c hc
  · intro c hk hc
    by_cases hcn : c = s.procs.next
    · refine ⟨p, by rw [hcn, inserted_parent_new hins], by omega, ?_⟩
      simp [hins.stage_self, begun]
    · obtain ⟨q, hq, hlt, hb⟩ := h.parent c hk ((inserted_alive hins hp hcn).mp hc)
      exact ⟨q, by rw [inserted_parent hins hcn, hq], by omega, inserted_begun hins (by omega) hb⟩
  · intro r pcb i c hr hi
    rcases hins.get_cases hr with ⟨-, hempty⟩ | ⟨-, hold⟩
    · rw [hempty] at hi
      cases hi
    · obtain ⟨h1, h2, h3⟩ := h.childs r pcb i c hold hi
      have hcn : c ≠ s.procs.next := Nat.ne_of_lt (h.lt h1.1)
      exact ⟨(inserted_alive hins hp hcn).mpr h1, by rw [inserted_parent hins hcn, h2], h3⟩
  · intro r c hr
    rcases inserted_child hins hplt hr with ⟨rfl, rfl⟩ | ⟨hsame, hrn⟩
    · refine ⟨by omega, by simp [hins.stage_new hplt, alive], inserted_parent_new hins, ?_⟩
      intro pcb i hg hi
      rcases hins.get_cases hg with ⟨hr', -⟩ | ⟨-, hold⟩
      · omega
      · exact Nat.lt_irrefl _ (h.lt (h.childs r pcb i _ hold hi).1.1)
    · rw [hsame] at hr
      obtain ⟨h1, h2, h3, h4⟩ := h.making r c hr
      have hcn : c ≠ s.procs.next := Nat.ne_of_lt (h.lt h2.1)
      refine ⟨h1, (inserted_alive hins hp hcn).mpr h2, by rw [inserted_parent hins hcn, h3], ?_⟩
      intro pcb i hg
      rcases hins.get_cases hg with ⟨hr', -⟩ | ⟨-, hold⟩
      · exact absurd hr' hrn
      · exact h4 pcb i hold
  · intro r c hr
    rcases inserted_child hins hplt (unborn_child hr) with ⟨-, rfl⟩ | ⟨hsame, -⟩
    · exact hins.stage_new hplt
    · rw [hsame] at hr
      have hc := h.embryo r c hr
      have hclt := h.lt (by simp [hc] : s.stage c ≠ .absent)
      have hcp : c ≠ p := by
        intro he
        rw [he, hp] at hc
        cases hc
      rw [hins.stage_ne hcp (by omega), hc]
  · intro c hc
    have hcp : c ≠ p := by
      rintro rfl
      rw [hins.stage_self] at hc
      cases hc
    have hcn : c ≠ s.procs.next := by
      rintro rfl
      rw [hins.stage_new hplt] at hc
      cases hc
    rw [hins.stage_ne hcp hcn] at hc
    rw [inserted_parent hins hcn]
    exact h.loading c hc
  · intro pcb i hg
    rcases hins.get_cases hg with ⟨hk, -⟩ | ⟨-, hold⟩
    · omega
    · exact h.barren pcb i hold

end Inserted

theorem parentOf_set {p : ℕ} {pcb pcb' : Proc} (hp : s.procs.get p = some pcb)
    (hprocs : s'.procs = s.procs.set p pcb') (hpar : pcb'.parent = pcb.parent) (c : ℕ) :
    parentOf s' c = parentOf s c := by
  obtain ⟨-, hcell⟩ := Store.get_some.mp hp
  rw [parentOf, hprocs, parentOf]
  by_cases hcp : c = p
  · rw [hcp, Store.set_cell_self (s.procs.cell_lt hcell), hcell]
    exact hpar
  · rw [Store.set_cell hcp]

theorem unlinked_frame {p q : ℕ} {par : Proc} (hq : s.procs.get q = some par)
    (hprocs : s'.procs = unlinked p q par s.procs) :
    (∀ c, parentOf s' c = parentOf s c) ∧ s'.procs.live = s.procs.live ∧
      s'.procs.next = s.procs.next := by
  unfold unlinked at hprocs
  split at hprocs
  · exact ⟨fun c => by simp [parentOf, hprocs], by rw [hprocs], by rw [hprocs]⟩
  · next j hj =>
    exact ⟨fun c => parentOf_set hq hprocs rfl c, by rw [hprocs]; rfl, by rw [hprocs]; rfl⟩

theorem pidOf_unlinked {p q : ℕ} {par : Proc} (hq : s.procs.get q = some par)
    (hprocs : s'.procs = unlinked p q par s.procs) (c : ℕ) : pidOf s' c = pidOf s c := by
  unfold unlinked at hprocs
  split at hprocs
  · rw [pidOf, hprocs, pidOf]
  · rw [pidOf, hprocs]
    exact Store.set_map Proc.pid hq (by rfl) c

/-- One array of children changes: it loses entries, or gains a child that is
not in it. -/
theorem Kin.setChilds (h : Kin s) {p : ℕ} {pcb pcb' : Proc} (hp : s.procs.get p = some pcb)
    (hpar : pcb'.parent = pcb.parent)
    (hkids : ∀ i c, pcb'.childs i = some c → p ≠ kproc ∧ alive (s.stage c) ∧ parentOf s c = some p ∧
      ∀ j, pcb'.childs j = some c → j = i)
    (hmake : ∀ c i, child (s.stage p) = some c → pcb'.childs i ≠ some c)
    (hprocs : s'.procs = s.procs.set p pcb') (hstage : s'.stage = s.stage) : Kin s' := by
  have hpar' : ∀ c, parentOf s' c = parentOf s c := by
    intro c
    exact parentOf_set hp hprocs hpar c
  have hget : ∀ q x, s'.procs.get q = some x → (q = p ∧ x = pcb') ∨ (q ≠ p ∧ s.procs.get q = some x) := by
    intro q x hq
    rw [hprocs] at hq
    exact Store.set_get_cases hp hq
  constructor
  · rw [hstage]
    exact h.kernel
  · intro c hc
    rw [hprocs] at hc
    rw [hstage]
    exact h.fresh c hc
  · intro c hc
    rw [hstage] at hc
    rw [hprocs]
    exact h.live c hc
  · intro c hk hc
    rw [hstage] at hc
    obtain ⟨q, hq, hlt, hb⟩ := h.parent c hk hc
    exact ⟨q, by rw [hpar', hq], by rw [hprocs]; exact hlt, by rwa [hstage]⟩
  · intro q x i c hq hi
    rw [hstage, hpar']
    rcases hget q x hq with ⟨rfl, rfl⟩ | ⟨-, hold⟩
    · exact (hkids i c hi).2
    · exact h.childs q x i c hold hi
  · intro q c hq
    rw [hstage] at hq ⊢
    obtain ⟨h1, h2, h3, h4⟩ := h.making q c hq
    refine ⟨h1, h2, by rw [hpar', h3], ?_⟩
    intro x i hx
    rcases hget q x hx with ⟨rfl, rfl⟩ | ⟨-, hold⟩
    · exact hmake c i hq
    · exact h4 x i hold
  · intro q c hq
    rw [hstage] at hq ⊢
    exact h.embryo q c hq
  · intro c hc
    rw [hstage] at hc
    rw [hpar']
    exact h.loading c hc
  · intro x i hx
    rcases hget kproc x hx with ⟨hk, rfl⟩ | ⟨-, hold⟩
    · cases hi : x.childs i with
      | none => rfl
      | some c => exact absurd hk.symm (hkids i c hi).1
    · exact h.barren x i hold

end OS161.ProcessKin
