import OS161.ProcessSteps

/-!
# The entries of the process table

An entry is allocated with its process and never freed: a slot of the table is
emptied, but whoever waits on the entry still finds it.
-/

set_option autoImplicit false

namespace OS161.ProcessEntries

open Function OS161.Slots OS161.Vfs OS161.ProcessTable OS161.ProcessEffects OS161.ProcessSteps

/-- The entry a process waits for. -/
def awaited : Stage → Option ℕ
  | .waiting _ e _ => some e
  | .woken _ e _ => some e
  | _ => none

/-- Entries of the process table are never freed. -/
structure Entered (s : System) : Prop where
  live : ∀ e < s.entries.next, s.entries.live e = true
  slots : ∀ i e, s.table i = some e → e < s.entries.next
  waits : ∀ p e, awaited (s.stage p) = some e → e < s.entries.next

variable {s s' : System}

theorem Entered.get (h : Entered s) {e : ℕ} (he : e < s.entries.next) :
    ∃ en, s.entries.get e = some en := by
  obtain ⟨en, hen⟩ := s.entries.live_cell e (h.live e he)
  exact ⟨en, Store.get_some.mpr ⟨h.live e he, hen⟩⟩

/-- The entries stay, the table loses slots, and no one begins to wait. -/
theorem Entered.frame (h : Entered s) (hentries : s'.entries = s.entries)
    (htable : ∀ i e, s'.table i = some e → s.table i = some e)
    (hstage : ∀ p e, awaited (s'.stage p) = some e → ∃ q, awaited (s.stage q) = some e) : Entered s' := by
  constructor
  · rw [hentries]
    exact h.live
  · intro i e hi
    rw [hentries]
    exact h.slots i e (htable i e hi)
  · intro p e hp
    obtain ⟨q, hq⟩ := hstage p e hp
    rw [hentries]
    exact h.waits q e hq

theorem clearAt_some {k : ℤ} {t : SlotArray MAX_PROCS ℕ} {i : Fin MAX_PROCS} {e : ℕ}
    (h : clearAt k t i = some e) : t i = some e := by
  unfold clearAt at h
  split at h
  · next hk =>
    by_cases hi : i = ⟨k.toNat, by omega⟩
    · rw [hi, update_self] at h
      cases h
    · rwa [update_of_ne hi] at h
  · exact h

theorem reaping_entered {p e : ℕ} {k : ℤ} {st : Status} {en : Entry} (h : Entered s)
    (hreap : Reaping p k e st en s s') : Entered s' := by
  refine h.frame hreap.entries ?_ ?_
  · intro i e' hi
    rw [hreap.table] at hi
    split at hi
    · exact hi
    · exact clearAt_some hi
  · intro q e' hq
    rw [hreap.stage] at hq
    by_cases hqp : q = p
    · rw [hqp, update_self] at hq
      cases hq
    · rw [update_of_ne hqp] at hq
      exact ⟨q, hq⟩

/-- Two processes come to stages in which they wait for nothing. -/
theorem awaited_update {p c : ℕ} {st st' : Stage} (hst : awaited st = none) (hst' : awaited st' = none)
    {q e : ℕ} (h : awaited (update (update s.stage c st) p st' q) = some e) :
    awaited (s.stage q) = some e := by
  by_cases hqp : q = p
  · rw [hqp, update_self, hst'] at h
    cases h
  · rw [update_of_ne hqp] at h
    by_cases hqc : q = c
    · rw [hqc, update_self, hst] at h
      cases h
    · rwa [update_of_ne hqc] at h

theorem awaited_setStage {p : ℕ} {st : Stage} (hst : awaited st = none) {q e : ℕ}
    (h : awaited (update s.stage p st q) = some e) : awaited (s.stage q) = some e := by
  by_cases hqp : q = p
  · rw [hqp, update_self, hst] at h
    cases h
  · rwa [update_of_ne hqp] at h

theorem awaited_home (p : ℕ) : awaited (home p) = none := by
  unfold home
  split <;> rfl

theorem moves_awaited {p : ℕ} {st : Stage} (h : Moves s p st) : awaited st = none := by
  cases h with
  | noMemory => exact awaited_home p
  | _ => rfl

theorem awaited_wakeOn (e : ℕ) (st : Stage) : awaited (st.wakeOn e) = awaited st := by
  rcases wakeOn_cases e st with h | ⟨k, t, h, h'⟩
  · rw [h]
  · rw [h', h]
    rfl

theorem insert_entered {p : ℕ} {k : ℤ} (h : Entered s) (hins : Inserting p k s s') : Entered s' := by
  constructor
  · intro e he
    rw [hins.entries, Store.alloc_next] at he
    rw [hins.entries]
    by_cases hen : e = s.entries.next
    · simp [Store.alloc, hen]
    · simpa [Store.alloc, update_of_ne hen] using h.live e (by omega)
  · intro i e hi
    rw [hins.entries, Store.alloc_next]
    rcases hins.slots hi with hold | rfl
    · exact Nat.lt_succ_of_lt (h.slots i e hold)
    · exact Nat.lt_succ_self _
  · intro q e hq
    rw [hins.stage] at hq
    rw [hins.entries, Store.alloc_next]
    exact Nat.lt_succ_of_lt (h.waits q e (awaited_update rfl rfl hq))

theorem exit_entered {p : ℕ} {code : ℤ} {pcb : Proc} {i : Fin MAX_PROCS} {cur : ℕ} {en : Entry} {q : ℕ}
    {par : Proc} (h : Entered s) (hex : Exiting p code pcb i cur en q par s s') : Entered s' := by
  constructor
  · intro e he
    rw [hex.entriesNext] at he
    obtain ⟨x, hx⟩ := h.get he
    by_cases hec : e = cur
    · obtain ⟨b, hb, -⟩ := hex.own
      rw [hec]
      exact (Store.get_some.mp hb).1
    · obtain ⟨b, hb, -⟩ := hex.others e x hec hx
      exact (Store.get_some.mp hb).1
  · intro j e hj
    rw [hex.entriesNext]
    obtain ⟨b, -, -, htable⟩ := hex.own
    rw [htable] at hj
    split at hj
    · by_cases hji : j = i
      · rw [hji, update_self] at hj
        cases hj
      · rw [update_of_ne hji] at hj
        exact h.slots j e hj
    · exact h.slots j e hj
  · intro r e hr
    rw [hex.entriesNext]
    rw [hex.stage] at hr
    by_cases hrp : r = p
    · rw [hrp, update_self] at hr
      cases hr
    · rw [update_of_ne hrp, awaited_wakeOn] at hr
      exact h.waits r e hr

theorem effect_entered {a : Action} (h : Entered s) (he : Effect s a s') : Entered s' := by
  have hkeep : ∀ i e, s.table i = some e → s.table i = some e := fun _ _ hi => hi
  cases he with
  | stay => exact h
  | move hm => exact h.frame rfl hkeep fun q e hq => ⟨q, awaited_setStage (moves_awaited hm) hq⟩
  | insert _ hins => exact insert_entered h hins
  | countUp => exact h.frame rfl hkeep fun q e hq => ⟨q, awaited_setStage rfl hq⟩
  | abandon => exact h.frame rfl hkeep fun q e hq => ⟨q, awaited_update rfl (awaited_home _) hq⟩
  | load => exact h.frame rfl hkeep fun q e hq => ⟨q, awaited_update rfl rfl hq⟩
  | launch => exact h.frame rfl hkeep fun q e hq => ⟨q, awaited_update rfl rfl hq⟩
  | record => exact h.frame rfl hkeep fun q e hq => ⟨q, awaited_setStage rfl hq⟩
  | unload => exact h.frame rfl hkeep fun q e hq => ⟨q, awaited_setStage rfl hq⟩
  | exit hex => exact exit_entered h hex
  | destroy => exact h.frame rfl hkeep fun q e hq => ⟨q, awaited_setStage rfl hq⟩
  | noProcess => exact h.frame rfl hkeep fun q e hq => ⟨q, hq⟩
  | noChild => exact h.frame rfl hkeep fun q e hq => ⟨q, hq⟩
  | @sleep p k st i e pcb en hask =>
    refine ⟨h.live, h.slots, ?_⟩
    intro q e' hq
    by_cases hqp : q = p
    · simp only [System.setStage, hqp, update_self, awaited, Option.some.injEq] at hq
      exact hq ▸ h.slots i e hask.slot
    · simp only [System.setStage, update_of_ne hqp] at hq
      exact h.waits q e' hq
  | reap _ _ hreap => exact reaping_entered h hreap
  | wake _ hreap => exact reaping_entered h hreap

theorem boot_entered : Entered boot := by
  constructor
  · intro e he
    have h0 : e = 0 := by
      simp [boot, fileTableBootstrap, procBootstrap, Store.empty] at he
      omega
    subst h0
    rfl
  · intro i e hi
    cases hi
  · intro p e hp
    by_cases hk : p = kproc
    · rw [hk] at hp
      cases hp
    · simp [boot, fileTableBootstrap, procBootstrap, hk, awaited] at hp

end OS161.ProcessEntries
