import OS161.ProcessTable

/-!
# What exit and waitpid do

Each of the two system calls runs through several loops and checks. The facts
below say once what is true of the state before and after a call that gets
through; the invariants are proved from them and not from the loops.
-/

set_option autoImplicit false

namespace OS161.ProcessEffects

open Function OS161.Slots OS161.Vfs OS161.ProcessTable

variable {s s' : System}

theorem entryAt_ok {k : ℤ} {x : Option ℕ} :
    entryAt k s = .ok x ↔ ∃ i : Fin MAX_PROCS, (i.val : ℤ) = k ∧ s.table i = x := by
  constructor
  · intro h
    simp only [entryAt] at h
    split at h
    · next hk =>
      cases h
      exact ⟨⟨k.toNat, by omega⟩, Int.toNat_of_nonneg hk.1, rfl⟩
    · cases h
  · rintro ⟨i, rfl, rfl⟩
    simp only [entryAt]
    rw [dif_pos ⟨by omega, by exact_mod_cast i.isLt⟩]
    congr 2

theorem clearAt_val (i : Fin MAX_PROCS) (t : SlotArray MAX_PROCS ℕ) :
    clearAt (i.val : ℤ) t = update t i none := by
  simp only [clearAt]
  rw [dif_pos ⟨by omega, by exact_mod_cast i.isLt⟩]
  congr 2

/-- The part of `proc_create` under the lock gives the new process the pid `k`. -/
structure Inserting (p : ℕ) (k : ℤ) (s s' : System) : Prop where
  procs : s'.procs = s.procs.alloc ⟨k, some p, 0, SlotArray.empty⟩
  entries : s'.entries = s.entries.alloc ⟨s.procs.next, false, false, 0⟩
  table : (∃ i : Fin MAX_PROCS, firstFree s.table = some i ∧ k = i.val ∧
      s'.table = update s.table i (some s.entries.next)) ∨
    firstFree s.table = none ∧ s'.table = s.table
  count : s'.count = s.count
  stage : s'.stage = update (update s.stage s.procs.next .embryo) p (.forking (.created s.procs.next))
  exits : s'.exits = s.exits
  known : s'.known = s.known
  calls : s'.calls = s.calls

theorem insertProc_effect (p : ℕ) (junk : ℤ) : ∃ k, Inserting p k s (insertProc p junk s) := by
  cases hi : firstFree s.table with
  | some i =>
    refine ⟨i.val, ?_⟩
    simp only [insertProc, hi]
    exact ⟨rfl, rfl, .inl ⟨i, hi, rfl, rfl⟩, rfl, rfl, rfl, rfl, rfl⟩
  | none =>
    refine ⟨junk, ?_⟩
    simp only [insertProc, hi]
    exact ⟨rfl, rfl, .inr ⟨hi, rfl⟩, rfl, rfl, rfl, rfl, rfl⟩

section Inserting

variable {p : ℕ} {k : ℤ}

theorem Inserting.stage_self (h : Inserting p k s s') : s'.stage p = .forking (.created s.procs.next) := by
  rw [h.stage, update_self]

theorem Inserting.stage_new (h : Inserting p k s s') (hp : p < s.procs.next) :
    s'.stage s.procs.next = .embryo := by
  rw [h.stage, update_of_ne (by omega), update_self]

theorem Inserting.stage_ne (h : Inserting p k s s') {q : ℕ} (hq : q ≠ p) (hqn : q ≠ s.procs.next) :
    s'.stage q = s.stage q := by
  rw [h.stage, update_of_ne hq, update_of_ne hqn]

theorem Inserting.get_cases (h : Inserting p k s s') {q : ℕ} {x : Proc}
    (hq : s'.procs.get q = some x) : (q = s.procs.next ∧ x.childs = SlotArray.empty) ∨
      (q ≠ s.procs.next ∧ s.procs.get q = some x) := by
  rw [h.procs] at hq
  rcases Store.alloc_get_cases hq with ⟨hqn, rfl⟩ | hold
  · exact .inl ⟨hqn, rfl⟩
  · exact .inr hold

theorem Inserting.pcb (h : Inserting p k s s') {q : ℕ} {x : Proc} (hq : s.procs.get q = some x) :
    s'.procs.get q = some x := by
  rw [h.procs]
  exact Store.alloc_get_old hq _

theorem Inserting.live (h : Inserting p k s s') {q : ℕ} (hq : s.procs.live q = true) :
    s'.procs.live q = true := by
  rw [h.procs]
  exact Store.alloc_live hq _

theorem Inserting.entry (h : Inserting p k s s') {e : ℕ} {en : Entry} (he : s.entries.get e = some en) :
    s'.entries.get e = some en := by
  rw [h.entries]
  exact Store.alloc_get_old he _

theorem Inserting.keep (h : Inserting p k s s') {i : Fin MAX_PROCS} {e : ℕ} (hi : s.table i = some e) :
    s'.table i = some e := by
  rcases h.table with ⟨j, hj, -, ht⟩ | ⟨-, ht⟩
  · have hij : i ≠ j := by
      rintro rfl
      rw [(firstFree_eq_some.mp hj).1] at hi
      cases hi
    rw [ht, update_of_ne hij, hi]
  · rw [ht, hi]

theorem Inserting.slots (h : Inserting p k s s') {i : Fin MAX_PROCS} {e : ℕ}
    (hi : s'.table i = some e) : s.table i = some e ∨ e = s.entries.next := by
  rcases h.table with ⟨j, -, -, ht⟩ | ⟨-, ht⟩
  · rw [ht] at hi
    by_cases hij : i = j
    · rw [hij, update_self] at hi
      exact .inr (Option.some.inj hi).symm
    · rw [update_of_ne hij] at hi
      exact .inl hi
  · rw [ht] at hi
    exact .inl hi

end Inserting

/-- The entry belongs to one of the children in the listed slots. -/
def marked (childs : SlotArray MAX_CHILDS ℕ) (is : List (Fin MAX_CHILDS)) (s : System) (e : ℕ) : Prop :=
  ∃ i ∈ is, ∃ c child, childs i = some c ∧ s.procs.get c = some child ∧
    entryAt child.pid s = .ok (some e)

theorem markChildren_spec {childs : SlotArray MAX_CHILDS ℕ} {is : List (Fin MAX_CHILDS)}
    (h : markChildren childs is s = .ok s') :
    s' = { s with entries := s'.entries } ∧ s'.entries.next = s.entries.next ∧
    (∀ i ∈ is, ∀ c, childs i = some c → ∃ child, s.procs.get c = some child) ∧
    ∀ e x, s.entries.get e = some x → ∃ b, s'.entries.get e = some { x with pTermed := b } ∧
      (b = true ↔ x.pTermed = true ∨ marked childs is s e) := by
  induction is generalizing s with
  | nil =>
    cases h
    refine ⟨rfl, rfl, by simp, ?_⟩
    intro e x hx
    exact ⟨x.pTermed, hx, by simp [marked]⟩
  | cons i is ih =>
    simp only [markChildren] at h
    split at h
    · next hi =>
      obtain ⟨h1, h2, h3, h4⟩ := ih h
      refine ⟨h1, h2, ?_, ?_⟩
      · intro j hj c hc
        rcases List.mem_cons.mp hj with rfl | hmem
        · rw [hi] at hc
          cases hc
        · exact h3 j hmem c hc
      · intro e x hx
        obtain ⟨b, hb, hiff⟩ := h4 e x hx
        refine ⟨b, hb, ?_⟩
        rw [hiff]
        simp [marked, hi]
    · next c hi =>
      split at h
      · cases h
      · next child hchild =>
        split at h
        · cases h
        · cases h
        · next e he =>
          split at h
          · cases h
          · next en hen =>
            obtain ⟨h1, h2, h3, h4⟩ := ih h
            refine ⟨h1, h2, ?_, ?_⟩
            · intro j hj d hd
              rcases List.mem_cons.mp hj with rfl | hmem
              · rw [hi] at hd
                cases hd
                exact ⟨child, hchild⟩
              · exact h3 j hmem d hd
            · intro e' x hx
              have hmark : marked childs (i::is) s e' ↔ e = e' ∨ marked childs is s e' := by
                constructor
                · rintro ⟨j, hj, d, ch, hd, hch, hat⟩
                  rcases List.mem_cons.mp hj with rfl | hmem
                  · rw [hi] at hd
                    cases hd
                    rw [hchild] at hch
                    cases hch
                    rw [he] at hat
                    cases hat
                    exact .inl rfl
                  · exact .inr ⟨j, hmem, d, ch, hd, hch, hat⟩
                · rintro (rfl | ⟨j, hj, d, ch, hd, hch, hat⟩)
                  · exact ⟨i, List.mem_cons_self, c, child, hi, hchild, he⟩
                  · exact ⟨j, List.mem_cons_of_mem i hj, d, ch, hd, hch, hat⟩
              rw [hmark]
              by_cases hee : e' = e
              · subst hee
                rw [hen] at hx
                cases hx
                obtain ⟨b, hb, hiff⟩ := h4 e' _ (Store.set_get_self hen { en with pTermed := true })
                refine ⟨b, hb, ?_⟩
                rw [hiff]
                simp
              · obtain ⟨b, hb, hiff⟩ := h4 e' x (by rw [Store.set_get hee]; exact hx)
                refine ⟨b, hb, ?_⟩
                rw [hiff]
                have hne : e ≠ e' := fun hx => hee hx.symm
                simp only [hne, false_or]
                rfl

/-- The parent's array without the child. -/
def unlinked (p q : ℕ) (par : Proc) (procs : Store Proc) : Store Proc :=
  match indexOf p par.childs with
  | none => procs
  | some j => procs.set q { par with childs := update par.childs j none }

theorem unlink_spec {p : ℕ} {parent : Option ℕ} (h : unlink p parent s = .ok s') :
    ∃ q par, parent = some q ∧ s.procs.get q = some par ∧
      s' = { s with procs := unlinked p q par s.procs } := by
  unfold unlink at h
  split at h
  · cases h
  · next q =>
    split at h
    · cases h
    · next par hpar =>
      refine ⟨q, par, rfl, hpar, ?_⟩
      unfold unlinked
      split at h
      · next hi =>
        cases h
        simp [hi]
      · next j hj =>
        cases h
        simp [hj]

theorem unlinked_get {p q r : ℕ} {par x : Proc} {procs : Store Proc} (hpar : procs.get q = some par)
    (hr : (unlinked p q par procs).get r = some x) :
    ∃ y, procs.get r = some y ∧ x.pid = y.pid ∧ x.parent = y.parent ∧ x.numChilds = y.numChilds ∧
      (∀ i c, x.childs i = some c → y.childs i = some c) ∧
      ((∀ i, x.childs i = y.childs i) ∨ r = q ∧ ∃ j, y.childs j = some p ∧
        x.childs = update y.childs j none) := by
  unfold unlinked at hr
  split at hr
  · exact ⟨x, hr, rfl, rfl, rfl, fun _ _ hc => hc, .inl fun _ => rfl⟩
  · next j hj =>
    by_cases hrq : r = q
    · subst hrq
      rw [Store.set_get_self hpar] at hr
      cases hr
      refine ⟨par, hpar, rfl, rfl, rfl, ?_, .inr ⟨rfl, j, (indexOf_eq_some.mp hj).1, rfl⟩⟩
      intro i c hc
      by_cases hij : i = j
      · simp [hij] at hc
      · simpa [update_of_ne hij] using hc
    · rw [Store.set_get hrq] at hr
      exact ⟨x, hr, rfl, rfl, rfl, fun _ _ hc => hc, .inl fun _ => rfl⟩

theorem unlinked_keep {p q r : ℕ} {par y : Proc} {procs : Store Proc} (hpar : procs.get q = some par)
    (hr : procs.get r = some y) : ∃ x, (unlinked p q par procs).get r = some x ∧
      ∀ i c, c ≠ p → y.childs i = some c → x.childs i = some c := by
  unfold unlinked
  split
  · exact ⟨y, hr, fun _ _ _ hc => hc⟩
  · next j hj =>
    by_cases hrq : r = q
    · subst hrq
      rw [hr] at hpar
      cases hpar
      refine ⟨_, Store.set_get_self hr _, ?_⟩
      intro i c hcp hc
      have hij : i ≠ j := by
        rintro rfl
        rw [(indexOf_eq_some.mp hj).1] at hc
        exact hcp (Option.some.inj hc).symm
      simpa [update_of_ne hij] using hc
    · exact ⟨y, by rw [Store.set_get hrq, hr], fun _ _ _ hc => hc⟩

theorem wakeOn_cases (e : ℕ) (st : Stage) :
    st.wakeOn e = st ∨ ∃ k t, st = .waiting k e t ∧ st.wakeOn e = .woken k e t := by
  cases st with
  | waiting k e' t =>
    by_cases he : e' = e
    · subst he
      exact .inr ⟨k, t, rfl, by simp [Stage.wakeOn]⟩
    · exact .inl (by simp [Stage.wakeOn, he])
  | _ => exact .inl rfl

/-- A call of `sys__exit` that gets through. -/
structure Exiting (p : ℕ) (code : ℤ) (pcb : Proc) (i : Fin MAX_PROCS) (cur : ℕ) (en : Entry)
    (q : ℕ) (par : Proc) (s s' : System) : Prop where
  running : s.stage p = .running
  self : s.procs.get p = some pcb
  pid : pcb.pid = i.val
  slot : s.table i = some cur
  entry : s.entries.get cur = some en
  parent : pcb.parent = some q
  parentLive : s.procs.get q = some par
  childLive : ∀ j c, pcb.childs j = some c → ∃ child, s.procs.get c = some child
  procs : s'.procs = unlinked p q par s.procs
  entriesNext : s'.entries.next = s.entries.next
  own : ∃ b, s'.entries.get cur = some ⟨en.pcb, true, b, code⟩ ∧
    (b = true ↔ en.pTermed = true ∨ marked pcb.childs (List.finRange _) s cur) ∧
    s'.table = if b then update s.table i none else s.table
  others : ∀ e x, e ≠ cur → s.entries.get e = some x → ∃ b, s'.entries.get e = some { x with pTermed := b } ∧
    (b = true ↔ x.pTermed = true ∨ marked pcb.childs (List.finRange _) s e)
  count : s'.count = s.count
  stage : s'.stage = update (fun r => (s.stage r).wakeOn cur) p .exited
  exits : s'.exits = update s.exits p (some code)
  known : s'.known = s.known
  calls : s'.calls = s.calls

theorem exit_effect {p : ℕ} {code : ℤ} (h : exit p code s = .ok s') :
    ∃ pcb i cur en q par, Exiting p code pcb i cur en q par s s' := by
  unfold ProcessTable.exit at h
  split at h
  · next hrun =>
    split at h
    · cases h
    · next pcb hpcb =>
      split at h
      · cases h
      · cases h
      · next cur hcur =>
        split at h
        · cases h
        · next en hen =>
          split at h
          · cases h
          · next s1 hmark =>
            simp only at h
            split at h
            · cases h
            · next s4 hunlink =>
              obtain ⟨i, hi, hslot⟩ := entryAt_ok.mp hcur
              obtain ⟨h1, h2, h3, h4⟩ := markChildren_spec hmark
              obtain ⟨q, par, hq, hpar, hs4⟩ := unlink_spec hunlink
              obtain ⟨entries, rfl⟩ : ∃ entries, s1 = { s with entries := entries } := ⟨_, h1⟩
              obtain ⟨b, hb, hiff⟩ := h4 cur _ (Store.set_get_self hen _)
              have hany : ((broadcast cur { s with entries := entries }).entries.get cur).any
                  Entry.pTermed = b := by
                show (entries.get cur).any Entry.pTermed = b
                simp only at hb
                simp [hb]
              cases h
              subst hs4
              rw [hany, ← hi, clearAt_val] at hpar ⊢
              refine ⟨pcb, i, cur, en, q, par, ?_⟩
              constructor
              · exact hrun
              · exact hpcb
              · exact hi.symm
              · exact hslot
              · exact hen
              · exact hq
              · cases b <;> exact hpar
              · intro j c hc
                exact h3 j (List.mem_finRange j) c hc
              · cases b <;> rfl
              · cases b <;> exact h2
              · refine ⟨b, ?_, hiff, ?_⟩
                · cases b <;> exact hb
                · cases b <;> rfl
              · intro e x hne hx
                obtain ⟨b', hb', hiff'⟩ := h4 e x (by rw [Store.set_get hne]; exact hx)
                refine ⟨b', ?_, hiff'⟩
                cases b <;> exact hb'
              · cases b <;> rfl
              · cases b <;> rfl
              · cases b <;> rfl
              · cases b <;> rfl
              · cases b <;> rfl
  · cases h

theorem hasChild_true {childs : SlotArray MAX_CHILDS ℕ} {k : ℤ} {is : List (Fin MAX_CHILDS)}
    (h : hasChild childs k s is = .ok true) :
    ∃ i c child, childs i = some c ∧ s.procs.get c = some child ∧ child.pid = k := by
  induction is with
  | nil => cases h
  | cons i is ih =>
    simp only [hasChild] at h
    split at h
    · exact ih h
    · next c hc =>
      split at h
      · cases h
      · next child hchild =>
        split at h
        · next hk => exact ⟨i, c, child, hc, hchild, hk⟩
        · exact ih h

theorem hasChild_false {childs : SlotArray MAX_CHILDS ℕ} {k : ℤ} {is : List (Fin MAX_CHILDS)}
    (h : hasChild childs k s is = .ok false) :
    ∀ i ∈ is, ∀ c child, childs i = some c → s.procs.get c = some child → child.pid ≠ k := by
  induction is with
  | nil => simp
  | cons i is ih =>
    simp only [hasChild] at h
    intro j hj d ch hd hch
    split at h
    · next hi =>
      rcases List.mem_cons.mp hj with rfl | hmem
      · rw [hi] at hd
        cases hd
      · exact ih h j hmem d ch hd hch
    · next c hc =>
      split at h
      · cases h
      · next child hchild =>
        split at h
        · cases h
        · next hk =>
          rcases List.mem_cons.mp hj with rfl | hmem
          · rw [hc] at hd
            cases hd
            rw [hchild] at hch
            cases hch
            exact hk
          · exact ih h j hmem d ch hd hch

theorem hasChild_safe {childs : SlotArray MAX_CHILDS ℕ} {k : ℤ} {is : List (Fin MAX_CHILDS)}
    (hchilds : ∀ i c, childs i = some c → ∃ child, s.procs.get c = some child) :
    ∃ b, hasChild childs k s is = .ok b := by
  induction is with
  | nil => exact ⟨false, rfl⟩
  | cons i is ih =>
    cases hc : childs i with
    | none => simpa only [hasChild, hc] using ih
    | some c =>
      obtain ⟨child, hchild⟩ := hchilds i c hc
      simp only [hasChild, hc, hchild]
      split
      · exact ⟨true, rfl⟩
      · exact ih

/-- What `sys_waitpid` returns when the target is dead. -/
def reaped (k : ℤ) (en : Entry) : Status → Except Errno (ℤ × Option ℤ)
  | .bad => .error .efault
  | .valid => .ok (k, some en.exitcode)
  | .null => .ok (k, none)

/-- The end of `sys_waitpid`. -/
structure Reaping (p : ℕ) (k : ℤ) (e : ℕ) (st : Status) (en : Entry) (s s' : System) : Prop where
  entry : s.entries.get e = some en
  termed : en.termed = true
  procs : s'.procs = s.procs
  entries : s'.entries = s.entries
  table : s'.table = if st = .bad then s.table else clearAt k s.table
  count : s'.count = s.count
  stage : s'.stage = update s.stage p .running
  exits : s'.exits = s.exits
  known : s'.known = s.known
  calls : s'.calls = (returns p k st (reaped k en st) s).calls

theorem reap_effect {p e : ℕ} {k : ℤ} {st : Status} (h : reap p k e st s = .ok s') :
    ∃ en, Reaping p k e st en s s' := by
  unfold reap at h
  split at h
  · cases h
  · next en hen =>
    split at h
    · cases h
    · next ht =>
      have hterm : en.termed = true := by simpa using ht
      refine ⟨en, ?_⟩
      cases st <;> cases h <;> exact ⟨hen, hterm, rfl, rfl, rfl, rfl, rfl, rfl, rfl, rfl⟩

/-- `sys_waitpid` with no options on a target that is in the table. -/
structure Asking (p : ℕ) (k : ℤ) (i : Fin MAX_PROCS) (e : ℕ) (pcb : Proc) (s : System) : Prop where
  running : s.stage p = .running
  pos : 0 < k
  pid : (i.val : ℤ) = k
  slot : s.table i = some e
  self : s.procs.get p = some pcb

/-- The ways a call of `sys_waitpid` can go: refused for its options, no such
process, not a child, already dead, or asleep. -/
theorem waitpid_cases {p : ℕ} {k opts : ℤ} {st : Status} (h : waitpid p k st opts s = .ok s') :
    (opts ≠ 0 ∧ s' = s) ∨
    (s.stage p = .running ∧ s' = returns p k st (.error .esrch) s ∧
      (k ≤ 0 ∨ ∃ i : Fin MAX_PROCS, (i.val : ℤ) = k ∧ s.table i = none)) ∨
    ∃ i e pcb, Asking p k i e pcb s ∧
      ((hasChild pcb.childs k s (List.finRange _) = .ok false ∧ s' = returns p k st (.error .echild) s) ∨
      (hasChild pcb.childs k s (List.finRange _) = .ok true ∧ ∃ en, s.entries.get e = some en ∧
        ((en.termed = true ∧ Reaping p k e st en s s') ∨
        (en.termed = false ∧ s' = s.setStage p (.waiting k e st))))) := by
  unfold waitpid at h
  split at h
  · next hrun =>
    split at h
    · next ho =>
      cases h
      exact .inl ⟨ho, rfl⟩
    · split at h
      · next hk =>
        cases h
        exact .inr (.inl ⟨hrun, rfl, .inl hk⟩)
      · next hk =>
        split at h
        · cases h
        · next hat =>
          cases h
          exact .inr (.inl ⟨hrun, rfl, .inr (entryAt_ok.mp hat)⟩)
        · next e hat =>
          obtain ⟨i, hi, hslot⟩ := entryAt_ok.mp hat
          split at h
          · cases h
          · next pcb hpcb =>
            have hask : Asking p k i e pcb s := ⟨hrun, by omega, hi, hslot, hpcb⟩
            refine .inr (.inr ⟨i, e, pcb, hask, ?_⟩)
            split at h
            · cases h
            · next hfound =>
              cases h
              exact .inl ⟨hfound, rfl⟩
            · next hfound =>
              split at h
              · cases h
              · next en hen =>
                refine .inr ⟨hfound, en, hen, ?_⟩
                split at h
                · next ht =>
                  obtain ⟨en', hreap⟩ := reap_effect h
                  have heq : en' = en := by
                    have := hreap.entry
                    rw [hen] at this
                    exact (Option.some.inj this).symm
                  exact .inl ⟨ht, heq ▸ hreap⟩
                · next ht =>
                  cases h
                  exact .inr ⟨by simpa using ht, rfl⟩
  · cases h

theorem wake_effect {p : ℕ} (h : wake p s = .ok s') :
    ∃ k e st en, s.stage p = .woken k e st ∧ Reaping p k e st en s s' := by
  unfold wake at h
  split at h
  · next k e st hst =>
    obtain ⟨en, hreap⟩ := reap_effect h
    exact ⟨k, e, st, en, hst, hreap⟩
  · cases h

end OS161.ProcessEffects
