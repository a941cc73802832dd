import OS161.KinSteps

/-!
# Who holds which slot of the process table

As long as a slot is free whenever a process is entered, every process that
has not exited holds the slot of its pid, and slot 0 stays with the first
program for good: its parent is the menu, which never marks it as an orphan,
and `sys_waitpid` does not take the pid 0.
-/

set_option autoImplicit false

namespace OS161.PidLedger

open Function OS161.Slots OS161.Vfs OS161.ProcessTable OS161.ProcessEffects OS161.ProcessSteps
open OS161.ProcessKin OS161.KinSteps

/-- A process that has not exited, and its entry in the table. -/
structure Own (s : System) (c : ℕ) (i : Fin MAX_PROCS) (e : ℕ) (en : Entry) : Prop where
  pid : pidOf s c = some (i.val : ℤ)
  slot : s.table i = some e
  entry : s.entries.get e = some en
  pcb : en.pcb = c
  termed : en.termed = false
  orphan : en.pTermed = true → ∀ q, parentOf s c = some q → ¬alive (s.stage q)

/-- The slot of the first program. -/
def ZeroHeld (s : System) : Prop :=
  ∃ e en, s.table 0 = some e ∧ s.entries.get e = some en ∧ en.pTermed = false ∧
    parentOf s en.pcb = some kproc

structure Books (s : System) : Prop where
  kin : Kin s
  older : ∀ c q, parentOf s c = some q → q < c
  own : ∀ c, c ≠ kproc → alive (s.stage c) → ∃ i e en, Own s c i e en
  zero : (s.procs.next = 1 ∧ s.table = SlotArray.empty) ∨ ZeroHeld s

variable {s s' : System}

/-- One entry, one process. -/
theorem own_process {c d e : ℕ} {i j : Fin MAX_PROCS} {en fn : Entry} (hc : Own s c i e en)
    (hd : Own s d j e fn) : c = d := by
  have hen : en = fn := Option.some.inj (hc.entry.symm.trans hd.entry)
  subst hen
  exact hc.pcb.symm.trans hd.pcb

/-- One slot, one process. -/
theorem own_unique {c d e f : ℕ} {i : Fin MAX_PROCS} {en fn : Entry} (hc : Own s c i e en)
    (hd : Own s d i f fn) : c = d := by
  have hef : e = f := Option.some.inj (hc.slot.symm.trans hd.slot)
  subst hef
  exact own_process hc hd

theorem own_pid {c : ℕ} {i j : Fin MAX_PROCS} {e : ℕ} {en : Entry} (hc : Own s c i e en)
    (hj : pidOf s c = some (j.val : ℤ)) : j = i := by
  have h := hc.pid
  rw [hj] at h
  have hv : (j.val : ℤ) = i.val := Option.some.inj h
  exact Fin.ext (by exact_mod_cast hv)

theorem own_entry {c e f : ℕ} {i j : Fin MAX_PROCS} {en fn : Entry} (hc : Own s c i e en)
    (hd : Own s c j f fn) : e = f := by
  have hij : i = j := own_pid hd hc.pid
  subst hij
  exact Option.some.inj (hc.slot.symm.trans hd.slot)

theorem Books.own_child (h : Books s) {c p : ℕ} (hpar : parentOf s c = some p)
    (hal : alive (s.stage c)) : ∃ i e en, Own s c i e en := by
  have hck : c ≠ kproc := by
    rintro rfl
    exact absurd (h.older _ p hpar) (Nat.not_lt_zero p)
  exact h.own c hck hal

/-- The table stays, and no one comes to life. -/
theorem Books.frame (h : Books s) (hkin : Kin s') (hst : Steady s s')
    (hentries : s'.entries = s.entries) (htable : s'.table = s.table) : Books s' := by
  obtain ⟨hnext, hpar, hpid, halive⟩ := hst
  constructor
  · exact hkin
  · intro c q hq
    rw [hpar] at hq
    exact h.older c q hq
  · intro c hk hc
    obtain ⟨i, e, en, hown⟩ := h.own c hk (halive c hc)
    refine ⟨i, e, en, by rw [hpid, hown.pid], by rw [htable, hown.slot], by rw [hentries, hown.entry],
      hown.pcb, hown.termed, ?_⟩
    intro hp q hq hal
    rw [hpar] at hq
    exact hown.orphan hp q hq (halive q hal)
  · rw [hnext, htable]
    rcases h.zero with hfirst | ⟨e, en, hslot, hen, hp, hker⟩
    · exact .inl hfirst
    · exact .inr ⟨e, en, by rw [htable, hslot], by rw [hentries, hen], hp, by rw [hpar, hker]⟩

/-- A dead process' slot, other than slot 0, is emptied. -/
theorem Books.clear (h : Books s) (hkin : Kin s') {i : Fin MAX_PROCS} {e : ℕ} {en : Entry} (hi : i ≠ 0)
    (hslot : s.table i = some e) (hen : s.entries.get e = some en) (hterm : en.termed = true)
    (hst : Steady s s') (hentries : s'.entries = s.entries)
    (htable : s'.table = update s.table i none) : Books s' := by
  obtain ⟨hnext, hpar, hpid, halive⟩ := hst
  constructor
  · exact hkin
  · intro c q hq
    rw [hpar] at hq
    exact h.older c q hq
  · intro c hk hc
    obtain ⟨j, f, fn, hown⟩ := h.own c hk (halive c hc)
    have hji : j ≠ i := by
      rintro rfl
      have hef : e = f := Option.some.inj (hslot.symm.trans hown.slot)
      subst hef
      have hsame : en = fn := Option.some.inj (hen.symm.trans hown.entry)
      have := hown.termed
      rw [← hsame, hterm] at this
      cases this
    refine ⟨j, f, fn, by rw [hpid, hown.pid], by rw [htable, update_of_ne hji, hown.slot],
      by rw [hentries, hown.entry], hown.pcb, hown.termed, ?_⟩
    intro hp q hq hal
    rw [hpar] at hq
    exact hown.orphan hp q hq (halive q hal)
  · right
    rcases h.zero with ⟨-, hempty⟩ | ⟨f, fn, hslot0, hfn, hp, hker⟩
    · rw [hempty] at hslot
      cases hslot
    · exact ⟨f, fn, by rw [htable, update_of_ne hi.symm, hslot0], by rw [hentries, hfn], hp,
        by rw [hpar, hker]⟩

theorem insert_books {p : ℕ} {k : ℤ} (h : Books s) (hkin : Kin s')
    (hp : s.stage p = .forking .admitted) (hfree : firstFree s.table ≠ none)
    (hins : Inserting p k s s') : Books s' := by
  have hplt := h.kin.lt (by simp [hp] : s.stage p ≠ .absent)
  obtain ⟨i, hi, hk, htable⟩ : ∃ i : Fin MAX_PROCS, firstFree s.table = some i ∧ k = i.val ∧
      s'.table = update s.table i (some s.entries.next) := by
    rcases hins.table with hslot | ⟨hnone, -⟩
    · exact hslot
    · exact absurd hnone hfree
  have hnew := inserted_parent_new hins
  have halive : ∀ c, c ≠ s.procs.next → alive (s'.stage c) → alive (s.stage c) :=
    fun c hcn hc => (inserted_alive hins hp hcn).mp hc
  constructor
  · exact hkin
  · intro c q hq
    by_cases hcn : c = s.procs.next
    · rw [hcn, hnew] at hq
      cases hq
      omega
    · rw [inserted_parent hins hcn] at hq
      exact h.older c q hq
  · intro c hck hc
    by_cases hcn : c = s.procs.next
    · refine ⟨i, s.entries.next, ⟨s.procs.next, false, false, 0⟩, ?_, by rw [htable, update_self],
        by rw [hins.entries, Store.alloc_get_self], hcn.symm, rfl, by simp⟩
      rw [hcn, pidOf, hins.procs, Store.alloc_cell_self, ← hk]
      rfl
    · obtain ⟨j, e, en, hown⟩ := h.own c hck (halive c hcn hc)
      refine ⟨j, e, en, ?_, hins.keep hown.slot, hins.entry hown.entry, hown.pcb, hown.termed, ?_⟩
      · rw [inserted_pid hins hcn]
        exact hown.pid
      · intro hpt q hq hal
        rw [inserted_parent hins hcn] at hq
        have hqlt := h.older c q hq
        have hclt := h.kin.lt (halive c hcn hc).1
        exact hown.orphan hpt q hq (halive q (by omega) hal)
  · right
    rcases h.zero with ⟨hone, hempty⟩ | ⟨e, en, hslot, hen, hpt, hker⟩
    · -- the very first process is entered by the menu, and takes slot 0
      have hpk : p = kproc := by
        have hk0 : kproc = 0 := rfl
        omega
      have hi0 : i = 0 := by
        by_contra hne
        have hlt : (0 : Fin MAX_PROCS) < i := Fin.pos_iff_ne_zero.mpr hne
        have := (firstFree_eq_some.mp hi).2 0 hlt
        rw [hempty] at this
        exact this rfl
      refine ⟨s.entries.next, ⟨s.procs.next, false, false, 0⟩, by rw [htable, hi0, update_self],
        by rw [hins.entries, Store.alloc_get_self], rfl, ?_⟩
      rw [hnew, hpk]
    · have hpcb : en.pcb ≠ s.procs.next := by
        intro he
        have : s.procs.cell en.pcb = none := by
          rw [he]
          exact s.procs.cell_fresh _ le_rfl
        rw [parentOf, this] at hker
        cases hker
      exact ⟨e, en, hins.keep hslot, hins.entry hen, hpt, by rw [inserted_parent hins hpcb, hker]⟩

/-- The entries an exit marks are those of the children. -/
theorem marked_entry {p : ℕ} {pcb : Proc} {is : List (Fin MAX_CHILDS)} {e : ℕ} {en : Entry}
    (h : Books s) (hp : s.procs.get p = some pcb) (hm : marked pcb.childs is s e)
    (hen : s.entries.get e = some en) : parentOf s en.pcb = some p := by
  obtain ⟨j, -, d, child, hd, hchild, hat⟩ := hm
  obtain ⟨hal, hpar, -⟩ := h.kin.childs p pcb j d hp hd
  obtain ⟨i, f, fn, hown⟩ := h.own_child hpar hal
  obtain ⟨a, ha, hslot⟩ := entryAt_ok.mp hat
  have hai : a = i := by
    apply own_pid hown
    rw [pidOf, (Store.get_some.mp hchild).2, ha]
    rfl
  rw [hai, hown.slot] at hslot
  cases hslot
  rw [hown.entry] at hen
  cases hen
  rw [hown.pcb, hpar]

section Exit

-- the process that exits, its slot and entry, and its parent
variable {p q cur : ℕ} {code : ℤ} {pcb par : Proc} {i : Fin MAX_PROCS} {en : Entry}

theorem exit_own (h : Books s) (hex : Exiting p code pcb i cur en q par s s') : Own s p i cur en := by
  have hk : p ≠ kproc := not_kernel h.kin.kernel (by simp [hex.running, menuStage])
  obtain ⟨j, e, fn, hown⟩ := h.own p hk (by simp [hex.running, alive])
  have hij : i = j := by
    apply own_pid hown
    rw [pidOf, (Store.get_some.mp hex.self).2, ← hex.pid]
    rfl
  subst hij
  have hce : cur = e := Option.some.inj (hex.slot.symm.trans hown.slot)
  subst hce
  have hen : en = fn := Option.some.inj (hex.entry.symm.trans hown.entry)
  subst hen
  exact hown

/-- A process that exits clears its slot if its parent has exited before. -/
theorem exit_table (h : Books s) (hex : Exiting p code pcb i cur en q par s s') :
    s'.entries.get cur = some ⟨p, true, en.pTermed, code⟩ ∧
    s'.table = if en.pTermed then update s.table i none else s.table := by
  have hown := exit_own h hex
  obtain ⟨b, hb, hiff, htable⟩ := hex.own
  have hbe : b = en.pTermed := by
    have hno : ¬marked pcb.childs (List.finRange _) s cur := by
      intro hm
      have hpar := marked_entry h hex.self hm hown.entry
      rw [hown.pcb] at hpar
      exact absurd (h.older p p hpar) (lt_irrefl p)
    simp only [hno, or_false] at hiff
    cases hp : en.pTermed <;> simp_all
  subst hbe
  rw [hown.pcb] at hb
  exact ⟨hb, htable⟩

theorem exit_keep (h : Books s) (hex : Exiting p code pcb i cur en q par s s') {j : Fin MAX_PROCS}
    (hj : j ≠ i) : s'.table j = s.table j := by
  rw [(exit_table h hex).2]
  split
  · rw [update_of_ne hj]
  · rfl

theorem exit_books (h : Books s) (hkin : Kin s') (hex : Exiting p code pcb i cur en q par s s') :
    Books s' := by
  obtain ⟨hpar, -, hnext⟩ := unlinked_frame hex.parentLive hex.procs
  have hpid := pidOf_unlinked hex.parentLive hex.procs
  have hown := exit_own h hex
  obtain ⟨hcur, htable⟩ := exit_table h hex
  constructor
  · exact hkin
  · intro c r hr
    rw [hpar] at hr
    exact h.older c r hr
  · intro c hk hc
    obtain ⟨hcp, hal⟩ := exit_dead hex hc
    obtain ⟨j, f, fn, hc'⟩ := h.own c hk hal
    have hji : j ≠ i := by
      rintro rfl
      exact hcp (own_unique hc' hown)
    have hfc : f ≠ cur := by
      intro he
      have hen := hc'.entry
      rw [he, hown.entry] at hen
      cases hen
      exact hcp (hc'.pcb.symm.trans hown.pcb)
    obtain ⟨b, hb, hiff⟩ := hex.others f fn hfc hc'.entry
    refine ⟨j, f, { fn with pTermed := b }, by rw [hpid, hc'.pid], by rw [exit_keep h hex hji, hc'.slot], hb,
      hc'.pcb, hc'.termed, ?_⟩
    intro hbt r hr hal'
    rw [hpar] at hr
    obtain ⟨hrp, halr⟩ := exit_dead hex hal'
    rcases hiff.mp hbt with hold | hm
    · exact hc'.orphan hold r hr halr
    · -- marked just now, by the parent that is exiting
      have hparent := marked_entry h hex.self hm hc'.entry
      rw [hc'.pcb, hr] at hparent
      exact hrp (Option.some.inj hparent)
  · right
    rcases h.zero with ⟨-, hempty⟩ | ⟨e, fn, hslot, hfn, hpt, hker⟩
    · have := hown.slot
      rw [hempty] at this
      cases this
    · by_cases hec : e = cur
      · subst hec
        rw [hown.entry] at hfn
        cases hfn
        refine ⟨e, _, ?_, hcur, hpt, ?_⟩
        · rw [htable, hpt]
          exact hslot
        · rw [hpar, ← hown.pcb, hker]
      · have hi0 : (0 : Fin MAX_PROCS) ≠ i := by
          intro he
          rw [he, hown.slot] at hslot
          exact hec (Option.some.inj hslot).symm
        obtain ⟨b, hb, hiff⟩ := hex.others e fn hec hfn
        have hbf : b = false := by
          by_contra hbt
          rcases hiff.mp (by simpa using hbt) with hold | hm
          · rw [hpt] at hold
            cases hold
          · have hparent := marked_entry h hex.self hm hfn
            rw [hker] at hparent
            exact not_kernel h.kin.kernel (by simp [hex.running, menuStage])
              (Option.some.inj hparent).symm
        exact ⟨e, { fn with pTermed := b }, by rw [exit_keep h hex hi0, hslot], hb, hbf, by rw [hpar, hker]⟩

end Exit

end OS161.PidLedger
