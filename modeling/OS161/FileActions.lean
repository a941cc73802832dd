import OS161.FileAccounting

/-!
# Closing, duplicating, forking and exiting

The other actions keep the accounting too. The one exception among them is a
fork that copies a non-standard descriptor in one of the slots 0 to 2: its
vnode gains no reference.
-/

set_option autoImplicit false

namespace OS161.FileActions

open Function OS161.Slots OS161.Vfs OS161.FileTable OS161.FileOwnership
open OS161.FileClosing OS161.FileOpening OS161.FileRuns OS161.FileAccounting

variable {s : System}

theorem closeSlot_accounted {p d : ℕ} {i : Handle} (h : Accounted s) (hp : p < s.nprocs)
    (hd : s.ft.slot p i = some d) :
    ∃ ft, closeSlot p i s.ft = .ok (none, ft) ∧ Accounted { s with ft := ft } := by
  obtain ⟨ft, hcl, ho⟩ := closeSlot_owned h.owned hp hd h.pinned_counted
  obtain ⟨-, hf, -, hslot⟩ := closeSlot_spec hd hcl
  refine ⟨ft, hcl, h.tables ho ?_ ?_⟩
  · intro file _
    simp [fileNode, hf]
  · intro q hq j
    have hne : q ≠ p := by omega
    rw [hslot, if_neg (fun hqj => hne hqj.1)]

theorem sysClose_accounted {p : ℕ} {fd : ℤ} {r : Option Errno} {ft : State}
    (h : Accounted s) (hp : p < s.nprocs) (hs : sysClose p fd s.ft = .ok (r, ft)) :
    Accounted { s with ft := ft } := by
  simp only [sysClose, localTableCloseFile, nonLockCloseFile] at hs
  split at hs
  · cases hs
    exact h
  · split at hs
    · next hrange =>
      cases hd : s.ft.slot p ⟨fd.toNat, by omega⟩ with
      | none =>
        simp only [closeSlot, hd, Except.ok.injEq, Prod.mk.injEq] at hs
        rw [← hs.2]
        exact h
      | some d =>
        obtain ⟨ft', hcl, hacc⟩ := closeSlot_accounted h hp hd
        rw [hcl] at hs
        cases hs
        exact hacc
    · cases hs
      exact h

theorem dupInto_frame {p d : ℕ} {new : Handle} {t t' : State} (h : dupInto p new d t = .ok t') :
    SameHeap t t' ∧
      t'.locals = ((t.setSlot p new (some d)).setNum p ((t.locals p).numOpenFiles+1)).locals := by
  simp only [dupInto, setSlot_num] at h
  split at h
  · cases h
  · split at h
    · split at h
      · cases h
      · cases h
      · split at h
        · cases h
        · cases h
          exact ⟨⟨rfl, rfl, rfl⟩, rfl⟩
    · cases h
      exact ⟨⟨rfl, rfl, rfl⟩, rfl⟩

theorem dupInto_slot {p d : ℕ} {new : Handle} {t t' : State} (h : dupInto p new d t = .ok t')
    (q : ℕ) (j : Handle) : t'.slot q j = (t.setSlot p new (some d)).slot q j := by
  rw [State.slot, (dupInto_frame h).2]
  exact setNum_slot _ _ _ _ _

theorem dupInto_accounted {p d : ℕ} {old new : Handle} (h : Accounted s)
    (hp : p < s.nprocs) (hold : s.ft.slot p old = some d) (hnew : s.ft.slot p new = none) :
    ∃ ft, dupInto p new d s.ft = .ok ft ∧ Accounted { s with ft := ft } := by
  obtain ⟨ft, hdup, ho⟩ := dupInto_owned h.owned hp hnew (h.owned.slots p hp old d hold)
    (fun vn hv => refcount_pos h.owned hp hold hv)
  refine ⟨ft, hdup, h.tables ho ?_ ?_⟩
  · intro file _
    rw [(dupInto_frame hdup).1.fileNode]
  · intro q hq j
    have hne : q ≠ p := by omega
    rw [dupInto_slot hdup, setSlot_slot, if_neg (fun hqj => hne hqj.1)]

theorem localTableDup2_accounted {p : ℕ} (old new : Handle) (h : Accounted s)
    (hp : p < s.nprocs) :
    ∃ r ft, localTableDup2 p old new s.ft = .ok (r, ft) ∧ Accounted { s with ft := ft } := by
  by_cases heq : old = new
  · exact ⟨none, s.ft, by simp [localTableDup2, heq], h⟩
  · cases hd : s.ft.slot p old with
    | none => exact ⟨some .ebadf, s.ft, by simp [localTableDup2, heq, hd], h⟩
    | some d =>
      cases hn : s.ft.slot p new with
      | none =>
        obtain ⟨ft, hdup, hacc⟩ := dupInto_accounted h hp hd hn
        exact ⟨none, ft, by simp [localTableDup2, heq, hd, hn, hdup, Except.map], hacc⟩
      | some e =>
        obtain ⟨ft, hcl, hacc⟩ := closeSlot_accounted h hp hn
        obtain ⟨-, -, -, hslot⟩ := closeSlot_spec hn hcl
        have hd' : ft.slot p old = some d := by
          rw [hslot, if_neg (fun hx => heq hx.2)]
          exact hd
        have hn' : ft.slot p new = none := by
          rw [hslot, if_pos ⟨rfl, rfl⟩]
        obtain ⟨ft', hdup, hacc'⟩ := dupInto_accounted hacc hp hd' hn'
        have hdup' : dupInto p new d ft = .ok ft' := hdup
        exact ⟨none, ft', by simp [localTableDup2, heq, hd, hn, hcl, hdup', Except.map], hacc'⟩

theorem sysDup2_accounted {p : ℕ} {oldfd newfd : ℤ} {r : Option Errno × ℤ × State}
    (h : Accounted s) (hp : p < s.nprocs) (hs : sysDup2 p oldfd newfd s.ft = .ok r) :
    Accounted { s with ft := r.2.2 } := by
  unfold sysDup2 at hs
  split at hs
  · cases hs
    exact h
  · next hrange =>
    obtain ⟨err, ft, hdup, hacc⟩ := localTableDup2_accounted ⟨oldfd.toNat, by omega⟩
      ⟨newfd.toNat, by omega⟩ h hp
    rw [hdup] at hs
    cases err <;> cases hs <;> exact hacc

theorem std_slotRefs {t : State} (hh : Heaps t) {p : ℕ}
    (hstd : ∀ i d, t.slot p i = some d → d < 3) (vn : ℕ) : slotRefs t vn p = 0 := by
  by_contra hne
  obtain ⟨i, d, hd, hw⟩ := weight_pos.mp (Nat.pos_of_ne_zero hne)
  simp [pointsTo, std_node hh (hstd i d hd)] at hw

/-- The system with one more process. -/
def spawned (ft : State) (pr : Process) (s : System) : System :=
  { s with ft := ft, procs := update s.procs s.nprocs pr, nprocs := s.nprocs+1 }

theorem spawned_procs_ne {ft : State} {pr : Process} {q : ℕ} (hq : q ≠ s.nprocs) :
    (spawned ft pr s).procs q = s.procs q := update_of_ne hq _ _

theorem spawned_procs_self (ft : State) (pr : Process) (s : System) :
    (spawned ft pr s).procs s.nprocs = pr := update_self _ _ _

theorem hand_spawned (ft : State) (pr : Process) (s : System) (vn : ℕ) :
    hand (spawned ft pr s) vn = hand s vn + refs pr vn := by
  have hold : total (fun p => refs ((spawned ft pr s).procs p) vn) s.nprocs =
      total (fun p => refs (s.procs p) vn) s.nprocs := by
    apply total_congr
    intro p hp
    rw [spawned_procs_ne (by omega)]
  have hn : (spawned ft pr s).nprocs = s.nprocs+1 := rfl
  have ho : (spawned ft pr s).others = s.others := rfl
  simp only [hand, hn, ho, total_succ, hold, spawned_procs_self]
  omega

theorem spawned_accounted (h : Accounted s) {ft : State} {pr : Process}
    (hpr : pr.opening = .idle)
    (ho : Owned s.nprocs (fun vn => hand s vn + refs pr vn + slotRefs ft vn s.nprocs)
      (pins s) ft)
    (hslots : ∀ i d, ft.slot s.nprocs i = some d → ValidDesc ft d)
    (hnode : ∀ f, fileNode ft f = fileNode s.ft f)
    (hslot : ∀ q, s.nprocs < q → ∀ i, ft.slot q i = s.ft.slot q i) :
    Accounted (spawned ft pr s) := by
  have hpin : ∀ q x, ((spawned ft pr s).procs q).opening.pin = some x →
      (s.procs q).opening.pin = some x := by
    intro q x hq
    by_cases hqn : q = s.nprocs
    · rw [hqn, spawned_procs_self, hpr] at hq
      cases hq
    · rwa [spawned_procs_ne hqn] at hq
  refine ⟨?_, ?_, ?_⟩
  · have hhand : hand (spawned ft pr s) = fun vn => hand s vn + refs pr vn := by
      funext vn
      exact hand_spawned ft pr s vn
    rw [hhand]
    apply (push_owned ho hslots).mono
    intro f hf
    obtain ⟨q, vn, hq⟩ := hf
    exact ⟨q, vn, hpin q (vn, f) hq⟩
  · intro q vn f hq
    exact (hnode f).trans (h.agree q vn f (hpin q (vn, f) hq))
  · intro q hq
    have hlt : s.nprocs < q := hq
    obtain ⟨hnone, hempty⟩ := h.unused q (by omega)
    refine ⟨?_, ?_⟩
    · rw [spawned_procs_ne (by omega)]
      exact hnone
    · intro i
      exact (hslot q hlt i).trans (hempty i)

theorem increfAll_counts {x : Option ℕ} {c c' : Refcounts} (h : increfAll x c = .ok c') (w : ℕ) :
    c' w = c w + pointsTo x w := by
  cases x with
  | none =>
    cases h
    simp [pointsTo]
  | some vn => exact incref_counts h w

theorem decrefAll_counts {x : Option ℕ} {c c' : Refcounts} (h : decrefAll x c = .ok c') (w : ℕ) :
    c' w + pointsTo x w = c w := by
  cases x with
  | none =>
    cases h
    simp [pointsTo]
  | some vn => exact decref_counts h w

theorem localTableCreate_std {i : Handle} {d : ℕ} (h : localTableCreate.files i = some d) : d < 3 := by
  simp only [localTableCreate, stdinFd, stdoutFd, stderrFd] at h
  split at h
  · cases h
    omega
  · split at h
    · cases h
      omega
    · split at h
      · cases h
        omega
      · cases h

/-- A new process's table and the reference for its current directory. -/
def hosted (c : Refcounts) (q : ℕ) (ft : State) : State :=
  { ft with refcount := c, locals := update ft.locals q localTableCreate }

theorem hosted_slot_self {c : Refcounts} {q : ℕ} {ft : State} (i : Handle) :
    (hosted c q ft).slot q i = localTableCreate.files i := by
  simp [hosted, State.slot]

theorem hosted_slot_ne {c : Refcounts} {p q : ℕ} {ft : State} (hp : p ≠ q) (i : Handle) :
    (hosted c q ft).slot p i = ft.slot p i := by
  simp [hosted, State.slot, update_of_ne hp]

theorem hosted_owned {cwd : Option ℕ} {c : Refcounts} (h : Accounted s)
    (hc : ∀ w, c w = s.ft.refcount w + pointsTo cwd w) :
    Owned s.nprocs (plus (hand s) cwd) (pins s) (hosted c s.nprocs s.ft) := by
  have ho : Owned s.nprocs (plus (hand s) cwd) (pins s) { s.ft with refcount := c } := by
    apply h.owned.withCounts
    intro w
    rw [hc w]
    simp only [plus]
    omega
  exact beyond_owned ho (le_refl _) localTableCreate

theorem runprogram_accounted {cwd : Option ℕ} {s' : System} (h : Accounted s)
    (hs : runprogram cwd s = .ok s') : Accounted s' := by
  unfold runprogram at hs
  cases hc : increfAll cwd s.ft.refcount with
  | error e => simp [hc] at hs
  | ok c =>
    simp only [hc, Except.ok.injEq] at hs
    subst hs
    have ho := hosted_owned h (increfAll_counts hc)
    have hstd : ∀ i d, (hosted c s.nprocs s.ft).slot s.nprocs i = some d → d < 3 := by
      intro i d hd
      rw [hosted_slot_self] at hd
      exact localTableCreate_std hd
    show Accounted (spawned (hosted c s.nprocs s.ft) ⟨true, .idle, cwd, none⟩ s)
    apply spawned_accounted h rfl
    · apply ho.handEq
      intro vn
      rw [std_slotRefs ho.heap hstd vn]
      simp [plus, refs, Process.outRefs, Opening.node, pointsTo]
    · intro i d hd
      exact .inl (hstd i d hd)
    · intro f
      rfl
    · intro q hq i
      exact hosted_slot_ne (by omega) i

/-- The slots the copy skips hold nothing that is counted. -/
def lowStd (ft : State) (p : ℕ) : Prop := ∀ i : Handle, i.val < 3 → ∀ d ∈ ft.slot p i, d < 3
  deriving Decidable

theorem listRefs_filter {ft : State} (hh : Heaps ft) {p : ℕ} (hlow : lowStd ft p) (vn : ℕ)
    (is : List Handle) :
    listRefs ft p (is.filter (fun i => 3 ≤ i.val)) vn = listRefs ft p is vn := by
  induction is with
  | nil => rfl
  | cons i is ih =>
    simp only [listRefs] at ih
    by_cases hi : 3 ≤ i.val
    · simp [listRefs, hi, ih]
    · have hz : (ft.slot p i).elim 0 (fun d => pointsTo (descNode ft d) vn) = 0 := by
        cases hd : ft.slot p i with
        | none => rfl
        | some d => simp [pointsTo, std_node hh (hlow i (by omega) d hd)]
      simp [listRefs, hi, hz, ih]

theorem listRefs_copied {ft : State} (hh : Heaps ft) {p : ℕ} (hlow : lowStd ft p) (vn : ℕ) :
    listRefs ft p copiedSlots vn = slotRefs ft vn p := by
  rw [copiedSlots, listRefs_filter hh hlow]
  exact (Fin.sum_univ_def _).symm

/-- The slots of one table copied into another. -/
def copied (p q : ℕ) (ft : State) : State :=
  { ft with locals := update ft.locals q ⟨(ft.locals p).files, (ft.locals q).numOpenFiles⟩ }

theorem copied_slot_self (p q : ℕ) (ft : State) (i : Handle) :
    (copied p q ft).slot q i = ft.slot p i := by
  simp [copied, State.slot]

theorem copied_slot_ne (p : ℕ) {q r : ℕ} (hr : r ≠ q) (ft : State) (i : Handle) :
    (copied p q ft).slot r i = ft.slot r i := by
  simp [copied, State.slot, update_of_ne hr]

theorem localTableCopy_eq {p q : ℕ} {ft ft' : State}
    (h : increfSlots p copiedSlots (copied p q ft) = .ok ft') :
    localTableCopy p q ft = .ok (ft'.setNum q (ft'.locals p).numOpenFiles) := by
  simp only [localTableCopy]
  simp only [copied] at h
  rw [h]

/-- `local_table_copy` into the table of a new process. -/
theorem localTableCopy_owned {n p : ℕ} {hand : ℕ → ℕ} {held : ℕ → Prop} {ft : State}
    (h : Owned n hand held ft) (hp : p < n) (hlow : lowStd ft p) :
    ∃ ft', localTableCopy p n ft = .ok ft' ∧
      Owned n (fun vn => hand vn + slotRefs ft' vn n) held ft' ∧ SameHeap ft ft' ∧
      (∀ q, q ≠ n → ∀ i, ft'.slot q i = ft.slot q i) ∧ ∀ i, ft'.slot n i = ft.slot p i := by
  have hne : p ≠ n := by omega
  have hb : Owned n hand held (copied p n ft) := beyond_owned h (le_refl n) _
  have hlow' : lowStd (copied p n ft) p := by
    intro i hi d hd
    rw [copied_slot_ne p hne] at hd
    exact hlow i hi d hd
  obtain ⟨c, hc, ho⟩ := increfSlots_owned hp copiedSlots hb
  refine ⟨_, localTableCopy_eq hc, ?_, ⟨rfl, rfl, rfl⟩, ?_, ?_⟩
  · apply (ho.setNum n _).handEq
    intro vn
    rw [listRefs_copied hb.heap hlow']
    have hfiles : ((copied p n ft).locals n).files = ((copied p n ft).locals p).files := by
      simp [copied, update_of_ne hne]
    simp only [slotRefs, setNum_local_files, hfiles]
    rfl
  · intro q hq i
    rw [setNum_slot]
    exact copied_slot_ne p hq ft i
  · intro i
    rw [setNum_slot]
    exact copied_slot_self p n ft i

theorem fork_accounted {p : ℕ} {s' : System} (h : Accounted s) (hp : p < s.nprocs)
    (hlow : lowStd s.ft p) (hs : fork p s = .ok s') : Accounted s' := by
  unfold fork at hs
  cases hcwd : (s.procs p).cwd with
  | none => simp [hcwd] at hs
  | some vn =>
    cases hc : vnodeIncref vn s.ft.refcount with
    | error e => simp [hcwd, hc] at hs
    | ok c =>
      have hne : p ≠ s.nprocs := by omega
      have ho := hosted_owned h (incref_counts hc)
      have hlow' : lowStd (hosted c s.nprocs s.ft) p := by
        intro i hi d hd
        rw [hosted_slot_ne hne] at hd
        exact hlow i hi d hd
      obtain ⟨ft, hcopy, ho', hsame, hother, hself⟩ := localTableCopy_owned ho hp hlow'
      have hcopy' : localTableCopy p s.nprocs { s.ft with
          refcount := c, locals := update s.ft.locals s.nprocs localTableCreate } = .ok ft := hcopy
      simp only [hcwd, hc, hcopy', Except.ok.injEq] at hs
      subst hs
      show Accounted (spawned ft ⟨true, .idle, some vn, none⟩ s)
      apply spawned_accounted h rfl
      · apply ho'.handEq
        intro w
        simp [plus, refs, Process.outRefs, Opening.node, pointsTo]
      · intro i d hd
        rw [hself i] at hd
        exact hsame.valid (ho.slots p hp i d hd)
      · intro f
        exact congrFun hsame.fileNode f
      · intro q hq i
        rw [hother q (by omega), hosted_slot_ne (by omega)]

theorem exit_accounted {p : ℕ} {s' : System} (h : Accounted s) (hr : s.ready p = true)
    (hs : exit p s = .ok s') : Accounted s' := by
  have hp := h.lt_of_ready hr
  obtain ⟨ft, hcl, ho⟩ := closeSlots_owned hp (List.finRange _) h.owned h.pinned_counted
  obtain ⟨hf, -, hslot⟩ := closeSlots_spec hcl
  simp only [exit, localTableCloseAll, hcl, setNum_refcount] at hs
  cases hc : decrefAll (s.procs p).cwd ft.refcount with
  | error e => simp [hc] at hs
  | ok c =>
    simp only [hc, Except.ok.injEq] at hs
    subst hs
    apply h.withProc hp
    · have hmono : ∀ f, pins (s.withProc p { ft.setNum p 0 with refcount := c } Process.none) f →
          pins s f := by
        rintro f ⟨q, w, hq⟩
        rcases withProc_pin hq with ⟨-, hx⟩ | ⟨-, hx⟩
        · cases hx
        · exact ⟨q, w, hx⟩
      apply ((ho.setNum p 0).mono hmono).withCounts
      intro w
      have h1 := hand_withProc hp { ft.setNum p 0 with refcount := c } Process.none w
      have h2 := decrefAll_counts hc w
      rw [ready_refs hr] at h1
      have hz : refs Process.none w = 0 := by simp [refs, Process.none, Process.outRefs, Opening.node, pointsTo]
      show c w + hand s w = ft.refcount w +
        hand (s.withProc p { ft.setNum p 0 with refcount := c } Process.none) w
      omega
    · intro w f hx
      cases hx
    · intro f _
      simp [fileNode, hf]
    · intro q hq i
      have hne : q ≠ p := by omega
      have hsl := hslot q i
      rw [if_neg (fun hqj => hne hqj.1)] at hsl
      exact (setNum_slot _ _ _ _ _).trans hsl

theorem chdir_accounted {p vn : ℕ} {s' : System} (h : Accounted s)
    (hr : s.ready p = true) (hs : chdir p vn s = .ok s') : Accounted s' := by
  unfold chdir at hs
  cases h1 : vnodeIncref vn (acquired vn s.ft.refcount) with
  | error e => simp [h1] at hs
  | ok c =>
    cases h2 : decrefAll (s.procs p).cwd c with
    | error e => simp [h1, h2] at hs
    | ok c' =>
      cases h3 : vnodeDecref vn c' with
      | error e => simp [h1, h2, h3] at hs
      | ok c'' =>
        simp only [h1, h2, h3, Except.ok.injEq] at hs
        subst hs
        obtain ⟨-, hop, hload⟩ := ready_parts hr
        apply h.counts (h.lt_of_ready hr)
        · intro x hx
          exact hx
        · intro w
          have e1 := incref_counts h1 w
          have e2 := decrefAll_counts h2 w
          have e3 := decref_counts h3 w
          have e4 := acquired_counts vn s.ft.refcount w
          rw [ready_refs hr]
          simp only [refs, Process.outRefs, Process.setCwd, hop, hload]
          have hz : pointsTo Opening.idle.node w = 0 ∧ pointsTo none w = 0 := ⟨rfl, by simp [pointsTo]⟩
          omega

theorem execClose_accounted {p : ℕ} {s' : System} (h : Accounted s)
    (hs : execClose p s = .ok s') : Accounted s' := by
  unfold execClose at hs
  cases hl : (s.procs p).loading with
  | none => simp [hl] at hs
  | some vn =>
    cases hc : vfsClose vn s.ft.refcount with
    | error e => simp [hl, hc] at hs
    | ok c =>
      simp only [hl, hc, Except.ok.injEq] at hs
      subst hs
      have hp : p < s.nprocs := by
        apply h.lt_of_ne
        intro he
        simp [he, Process.none] at hl
      apply h.counts hp
      · intro x hx
        exact hx
      · intro w
        have hd := decref_counts hc w
        have hz : pointsTo none w = 0 := by simp [pointsTo]
        simp only [refs, Process.outRefs, Process.setLoading, hl]
        omega

/-- An executable left open is held by no process from then on. -/
theorem execAbandon_accounted {p : ℕ} {s' : System} (h : Accounted s)
    (hs : execAbandon p s = .ok s') : Accounted s' := by
  unfold execAbandon at hs
  cases hl : (s.procs p).loading with
  | none => simp [hl] at hs
  | some vn =>
    have hp : p < s.nprocs := by
      apply h.lt_of_ne
      intro he
      simp [he, Process.none] at hl
    simp only [hl, Except.ok.injEq] at hs
    subst hs
    have hpin : ∀ q, (update s.procs p ((s.procs p).setLoading none) q).opening =
        (s.procs q).opening := by
      intro q
      by_cases hq : q = p
      · subst hq
        simp [Process.setLoading]
      · simp [update_of_ne hq]
    refine ⟨?_, ?_, ?_⟩
    · have hmono : Owned s.nprocs (hand s) (pins { s with
          procs := update s.procs p ((s.procs p).setLoading none)
          others := acquired vn s.others }) s.ft := by
        apply h.owned.mono
        rintro f ⟨q, w, hq⟩
        rw [hpin q] at hq
        exact ⟨q, w, hq⟩
      apply hmono.handEq
      intro w
      have h1 := hand_withProc hp s.ft ((s.procs p).setLoading none) w
      have h2 := acquired_counts vn s.others w
      have h3 : refs ((s.procs p).setLoading none) w + pointsTo (some vn) w = refs (s.procs p) w := by
        have hz : pointsTo none w = 0 := by simp [pointsTo]
        simp only [refs, Process.outRefs, Process.setLoading, hl]
        omega
      simp only [hand, System.withProc] at h1 ⊢
      omega
    · intro q w f hq
      rw [hpin q] at hq
      exact h.agree q w f hq
    · intro q hq
      have hne : q ≠ p := by
        have : q ≥ s.nprocs := hq
        omega
      obtain ⟨hnone, hempty⟩ := h.unused q hq
      exact ⟨by simpa [update_of_ne hne] using hnone, hempty⟩

end OS161.FileActions
