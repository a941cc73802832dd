import OS161.KinSteps
import OS161.ProcessEntries

/-!
# Pointers to processes that are gone

`sys__exit` reads the parent and the children of the process that exits,
`sys_waitpid` the children of its caller. A process is destroyed without
asking whether someone still points to it. The pointers hold as long as no
process is destroyed before its children have exited, and no child exits
before its parent has recorded it.
-/

set_option autoImplicit false

namespace OS161.ProcessPointers

open Function OS161.Slots OS161.Vfs OS161.ProcessTable OS161.ProcessEffects OS161.ProcessSteps
open OS161.ProcessKin OS161.KinSteps OS161.ProcessEntries

/-- The condition on a step that keeps all pointers good. -/
def Orderly : Action → System → Prop
  | .exit p code, s => Recorded (.exit p code) s
  | .destroy p, s => ∀ c : Fin s.procs.next, alive (s.stage c) → parentOf s c ≠ some p
  | _, _ => True

instance (a : Action) (s : System) : Decidable (Orderly a s) := by
  induction a using ProcessTable.Action.casesOn
  case exit p code => exact inferInstanceAs (Decidable (Recorded (.exit p code) s))
  case destroy p =>
    exact inferInstanceAs (Decidable (∀ c : Fin s.procs.next, alive (s.stage c) → parentOf s c ≠ some p))
  all_goals exact isTrue trivial

/-- The parent and the children of every process that has not exited are
still allocated. -/
def PointersLive (s : System) : Prop :=
  ∀ p pcb, p ≠ kproc → alive (s.stage p) → s.procs.get p = some pcb →
    (∃ q par, pcb.parent = some q ∧ s.procs.get q = some par) ∧
    ∀ i c, pcb.childs i = some c → ∃ child, s.procs.get c = some child

/-- Neither system call reads memory that has been freed. -/
def NoStrayRead (s : System) : Prop :=
  ∀ p, (∀ code, exit p code s ≠ .error .useAfterFree) ∧
    (∀ k st opts, waitpid p k st opts s ≠ .error .useAfterFree) ∧ wake p s ≠ .error .useAfterFree

def Elders (s : System) : Prop :=
  ∀ c, c ≠ kproc → alive (s.stage c) → ∃ q, parentOf s c = some q ∧ s.procs.live q = true

variable {s s' : System}

theorem childless (h : Kin s) {p : ℕ} (hp : ¬begun (s.stage p)) (c : ℕ) (hk : c ≠ kproc)
    (hc : alive (s.stage c)) : parentOf s c ≠ some p := by
  intro hpar
  obtain ⟨q, hq, -, hb⟩ := h.parent c hk hc
  rw [hpar] at hq
  cases hq
  exact hp hb

theorem insert_elders {p : ℕ} {k : ℤ} (h : Elders s) (hkin : Kin s)
    (hp : s.stage p = .forking .admitted) (hins : Inserting p k s s') : Elders s' := by
  have hplive := hkin.live p (by simp [hp])
  intro c hk hc
  by_cases hcn : c = s.procs.next
  · exact ⟨p, by rw [hcn, inserted_parent_new hins], hins.live hplive⟩
  · obtain ⟨q, hq, hl⟩ := h c hk ((inserted_alive hins hp hcn).mp hc)
    exact ⟨q, by rw [inserted_parent hins hcn, hq], hins.live hl⟩

/-- What a step frees has not begun yet, or is being destroyed. -/
theorem effect_live {a : Action} (h : Kin s) (he : Effect s a s') {q : ℕ}
    (hq : s.procs.live q = true) :
    s'.procs.live q = true ∨ ¬begun (s.stage q) ∨ a = .destroy q := by
  have hfree : ∀ c, q ≠ c → (s.procs.free c).live q = true := by
    intro c hc
    simpa [Store.free, update_of_ne hc] using hq
  cases he with
  | insert _ hins => exact .inl (hins.live hq)
  | @abandon p c hp =>
    by_cases hqc : q = c
    · rw [hqc, h.embryo p c (by simp [hp, unborn])]
      exact .inr (.inl (by simp [begun]))
    · exact .inl (hfree c hqc)
  | @unload p hp =>
    by_cases hqp : q = p
    · rw [hqp, hp]
      exact .inr (.inl (by simp [begun]))
    · exact .inl (hfree p hqp)
  | @destroy p hp =>
    by_cases hqp : q = p
    · exact .inr (.inr (by rw [hqp]))
    · exact .inl (hfree p hqp)
  | exit hex =>
    rw [(unlinked_frame hex.parentLive hex.procs).2.1]
    exact .inl hq
  | reap _ _ hreap =>
    rw [hreap.procs]
    exact .inl hq
  | wake _ hreap =>
    rw [hreap.procs]
    exact .inl hq
  | _ => exact .inl hq

theorem effect_elders {a : Action} (h : Elders s) (hkin : Kin s) (hg : Orderly a s)
    (he : Effect s a s') : Elders s' := by
  rcases effect_steady hkin he with ⟨p, k, junk, -, hp, hins⟩ | hst
  · exact insert_elders h hkin hp hins
  · intro c hk hc
    have hal := hst.alive c hc
    obtain ⟨q, hq, hl⟩ := h c hk hal
    refine ⟨q, by rw [hst.parent, hq], ?_⟩
    rcases effect_live hkin he hl with hlive | hnot | rfl
    · exact hlive
    · exact absurd hq (childless hkin hnot c hk hal)
    · exact absurd hq (hg ⟨c, hkin.lt hal.1⟩ hal)

/-- What the two system calls rely on. -/
structure Reliable (s : System) : Prop where
  kin : Kin s
  entered : Entered s
  elders : Elders s

theorem reliable_pointers (h : Reliable s) : PointersLive s := by
  intro p pcb hk hp hpcb
  constructor
  · obtain ⟨q, hq, hl⟩ := h.elders p hk hp
    obtain ⟨par, hpar⟩ := s.procs.live_cell q hl
    refine ⟨q, par, ?_, Store.get_some.mpr ⟨hl, hpar⟩⟩
    rw [parentOf, (Store.get_some.mp hpcb).2] at hq
    exact hq
  · intro i c hc
    exact h.kin.get (h.kin.childs p pcb i c hpcb hc).1.1

theorem entryAt_stop {k : ℤ} {stop : Stop} (h : entryAt k s = .error stop) : stop = .outOfBounds := by
  unfold entryAt at h
  split at h
  · cases h
  · exact (Except.error.inj h).symm

theorem markChildren_safe {childs : SlotArray MAX_CHILDS ℕ} {is : List (Fin MAX_CHILDS)}
    (hchilds : ∀ i c, childs i = some c → ∃ child, s.procs.get c = some child)
    (htable : ∀ i e, s.table i = some e → ∃ en, s.entries.get e = some en) :
    markChildren childs is s ≠ .error .useAfterFree := by
  induction is generalizing s with
  | nil => simp [markChildren]
  | cons i is ih =>
    intro h
    simp only [markChildren] at h
    split at h
    · exact ih hchilds htable h
    · next c hc =>
      obtain ⟨child, hchild⟩ := hchilds i c hc
      simp only [hchild] at h
      split at h
      · next stop hstop =>
        cases h
        cases entryAt_stop hstop
      · cases h
      · next e he =>
        obtain ⟨j, -, hj⟩ := entryAt_ok.mp he
        obtain ⟨en, hen⟩ := htable j e hj
        simp only [hen] at h
        refine absurd h (ih hchilds ?_)
        intro a e' ha
        exact Store.set_get_exists hen _ (htable a e' ha)

theorem unlink_safe {p q : ℕ} {par : Proc} (h : s.procs.get q = some par) :
    unlink p (some q) s ≠ .error .useAfterFree := by
  simp only [unlink, h]
  split <;> simp

theorem exit_safe (h : Reliable s) (p : ℕ) (code : ℤ) : exit p code s ≠ .error .useAfterFree := by
  intro hs
  unfold ProcessTable.exit at hs
  split at hs
  · next hrun =>
    obtain ⟨pcb, hpcb⟩ := h.kin.get (by simp [hrun] : s.stage p ≠ .absent)
    have hk : p ≠ kproc := not_kernel h.kin.kernel (by simp [hrun, menuStage])
    obtain ⟨⟨q, par, hq, hpar⟩, hchilds⟩ := reliable_pointers h p pcb hk (by simp [hrun, alive]) hpcb
    simp only [hpcb] at hs
    split at hs
    · next stop hstop =>
      cases hs
      cases entryAt_stop hstop
    · cases hs
    · next cur hcur =>
      obtain ⟨i, -, hi⟩ := entryAt_ok.mp hcur
      obtain ⟨en, hen⟩ := h.entered.get (h.entered.slots i cur hi)
      simp only [hen] at hs
      split at hs
      · next hmark =>
        cases hs
        refine absurd hmark (markChildren_safe hchilds ?_)
        intro j e hj
        exact Store.set_get_exists hen _ (h.entered.get (h.entered.slots j e hj))
      · next s1 hmark =>
        obtain ⟨h1, -⟩ := markChildren_spec hmark
        obtain ⟨entries, rfl⟩ : ∃ entries, s1 = { s with entries := entries } := ⟨_, h1⟩
        rw [hq] at hs
        split at hs
        · next hunlink =>
          cases hs
          refine absurd hunlink (unlink_safe (show _ = some par from ?_))
          split <;> exact hpar
        · cases hs
  · cases hs

theorem reap_safe (h : Reliable s) {p e : ℕ} {k : ℤ} {st : Status} (he : e < s.entries.next) :
    reap p k e st s ≠ .error .useAfterFree := by
  obtain ⟨en, hen⟩ := h.entered.get he
  simp only [reap, hen]
  split
  · simp
  · cases st <;> simp

theorem waitpid_safe (h : Reliable s) (p : ℕ) (k : ℤ) (st : Status) (opts : ℤ) :
    waitpid p k st opts s ≠ .error .useAfterFree := by
  intro hs
  unfold waitpid at hs
  split at hs
  · next hrun =>
    obtain ⟨pcb, hpcb⟩ := h.kin.get (by simp [hrun] : s.stage p ≠ .absent)
    have hk : p ≠ kproc := not_kernel h.kin.kernel (by simp [hrun, menuStage])
    obtain ⟨-, hchilds⟩ := reliable_pointers h p pcb hk (by simp [hrun, alive]) hpcb
    split at hs
    · cases hs
    · split at hs
      · cases hs
      · split at hs
        · next stop hstop =>
          cases hs
          cases entryAt_stop hstop
        · cases hs
        · next e he =>
          obtain ⟨i, -, hi⟩ := entryAt_ok.mp he
          have hlt := h.entered.slots i e hi
          obtain ⟨en, hen⟩ := h.entered.get hlt
          obtain ⟨b, hb⟩ : ∃ b, hasChild pcb.childs k s (List.finRange _) = .ok b := hasChild_safe hchilds
          simp only [hpcb, hb] at hs
          cases b with
          | false => cases hs
          | true =>
            simp only [hen] at hs
            split at hs
            · exact reap_safe h hlt hs
            · cases hs
  · cases hs

theorem wake_safe (h : Reliable s) (p : ℕ) : wake p s ≠ .error .useAfterFree := by
  unfold wake
  split
  · next k e st hst => exact reap_safe h (h.entered.waits p e (by simp [hst, awaited]))
  · simp

theorem step_reliable {a : Action} (h : Reliable s) (hg : Orderly a s) (hs : step a s = .ok s') :
    Reliable s' := by
  have he := step_effect hs
  have hrec : Recorded a s := by
    cases a with
    | exit p code => exact hg
    | _ => trivial
  exact ⟨effect_kin h.kin hrec he, effect_entered h.entered he, effect_elders h.elders h.kin hg he⟩

theorem boot_reliable : Reliable boot := by
  refine ⟨boot_kin, boot_entered, ?_⟩
  intro c hk hc
  exact absurd (boot_stage hk) hc.1

/-- In every run in which children are recorded before they exit and exit
before their parent is destroyed, over any number of processes and in any
interleaving, no pointer that `sys__exit` and `sys_waitpid` follow is stray. -/
theorem orderly_run_pointers (as : List Action) (t : System) (hg : Runs.Guarded step Orderly as boot)
    (hr : run as boot = .ok t) : PointersLive t ∧ NoStrayRead t := by
  have h : Reliable t :=
    Runs.guarded_invariant (fun _ _ _ h hg hs => step_reliable h hg hs) hg boot_reliable hr
  exact ⟨reliable_pointers h, fun p => ⟨exit_safe h p, waitpid_safe h p, wake_safe h p⟩⟩

/-- A parent waits for its child, the child exits and is destroyed, and the
parent exits itself. -/
def waitedFor : List Action :=
  started ++ forked 1 ++ [.waitpid 1 1 .valid 0, .exit 2 5, .destroy 2, .wake 1, .exit 1 0]

theorem waitedFor_pointers :
    ∃ t, run waitedFor boot = .ok t ∧ t.exits 1 = some 0 ∧ PointersLive t ∧ NoStrayRead t := by
  have hg : Runs.Guarded step Orderly waitedFor boot := by decide +kernel
  have hr : ∃ t, run waitedFor boot = .ok t ∧ t.exits 1 = some 0 := by decide +kernel
  obtain ⟨t, hr, hexit⟩ := hr
  exact ⟨t, hr, hexit, orderly_run_pointers waitedFor t hg hr⟩

/-- A parent exits and is destroyed while its child still runs. -/
def orphaned : List Action := started ++ forked 1 ++ [.exit 1 0, .destroy 1]

/-- A child exits and is destroyed before its parent has recorded it. -/
def tooEarly : List Action :=
  started ++ [.fork 1, .recheck 1, .insert 1 true 0, .countUp 1, .start 1 true, .exit 2 5, .destroy 2,
    .record 1 0]

theorem orphaned_strays :
    (∃ t, run orphaned boot = .ok t ∧ exit 2 5 t = .error .useAfterFree ∧ ¬NoStrayRead t) ∧
    ∃ t, run tooEarly boot = .ok t ∧ exit 1 0 t = .error .useAfterFree ∧ ¬NoStrayRead t := by
  have hr : ∃ t, run orphaned boot = .ok t ∧ exit 2 5 t = .error .useAfterFree := by decide +kernel
  have hr' : ∃ t, run tooEarly boot = .ok t ∧ exit 1 0 t = .error .useAfterFree := by decide +kernel
  obtain ⟨t, hr, hstray⟩ := hr
  obtain ⟨t', hr', hstray'⟩ := hr'
  exact ⟨⟨t, hr, hstray, fun h => (h 2).1 5 hstray⟩, t', hr', hstray', fun h => (h 1).1 0 hstray'⟩

end OS161.ProcessPointers
