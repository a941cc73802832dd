import OS161.GlobalTable

/-!
# The global table lists exactly the files in use

The remaining actions, and the run. In every run in which no last table
reference is given back while someone else holds the vnode, the global table
is exact whenever no open is in progress: its count is right, no vnode has two
files, and a file is listed if and only if some slot leads to it.
-/

set_option autoImplicit false

namespace OS161.GlobalExact

open Function OS161.Slots OS161.Vfs OS161.FileTable OS161.FileOwnership OS161.FileClosing
open OS161.FileOpening OS161.FileClearing OS161.FileRuns OS161.FileAccounting OS161.FileActions
open OS161.FileSafety OS161.GlobalTable

variable {s s' : System}

theorem localTableDup2_backed {base : ℕ → ℕ} {p : ℕ} {old new : Handle} {r : Option Errno} {ft : State}
    (ha : Accounted s) (hp : p < s.nprocs) (h : Backed base s.ft)
    (hlast : old ≠ new → s.ft.slot p old ≠ none → ∀ d, s.ft.slot p new = some d →
      ∀ vn, descNode s.ft d = some vn → s.ft.refcount vn = base vn + 1 → base vn = 0)
    (hs : localTableDup2 p old new s.ft = .ok (r, ft)) : Backed base ft := by
  unfold localTableDup2 at hs
  split at hs
  · cases hs
    exact h
  · next hne =>
    cases hd : s.ft.slot p old with
    | none =>
      simp only [hd, Except.ok.injEq, Prod.mk.injEq] at hs
      rw [← hs.2]
      exact h
    | some d =>
      cases hn : s.ft.slot p new with
      | none =>
        simp only [hd, hn] at hs
        cases hdup : dupInto p new d s.ft with
        | error e => simp [hdup, Except.map] at hs
        | ok u =>
          simp only [hdup, Except.map, Except.ok.injEq, Prod.mk.injEq] at hs
          rw [← hs.2]
          exact dupInto_backed h hdup
      | some e =>
        obtain ⟨u, hcl, -⟩ := closeSlot_accounted ha hp hn
        have hback := closeSlot_backed ha hp hn h (hlast hne (by simp [hd]) e hn) hcl
        simp only [hd, hn, hcl] at hs
        cases hdup : dupInto p new d u with
        | error e => simp [hdup, Except.map] at hs
        | ok v =>
          simp only [hdup, Except.map, Except.ok.injEq, Prod.mk.injEq] at hs
          rw [← hs.2]
          exact dupInto_backed hback hdup

theorem sysDup2_backed {p : ℕ} {oldfd newfd : ℤ} {r : Option Errno × ℤ × State} (ha : Accounted s)
    (hp : p < s.nprocs) (hu : Unshared (.dup2 p oldfd newfd) s) (h : Backed (outsideRefs s) s.ft)
    (hs : sysDup2 p oldfd newfd s.ft = .ok r) : Backed (outsideRefs s) r.2.2 := by
  unfold sysDup2 at hs
  split at hs
  · cases hs
    exact h
  · next hrange =>
    have hlast : (⟨oldfd.toNat, by omega⟩ : Handle) ≠ ⟨newfd.toNat, by omega⟩ →
        s.ft.slot p ⟨oldfd.toNat, by omega⟩ ≠ none → ∀ d, s.ft.slot p ⟨newfd.toNat, by omega⟩ = some d →
        ∀ vn, descNode s.ft d = some vn → s.ft.refcount vn = outsideRefs s vn + 1 →
        outsideRefs s vn = 0 := by
      intro hne hold d hd vn hv hone
      have hfd : oldfd ≠ newfd := by
        intro he
        subst he
        exact hne rfl
      have hold' : localTableGet p oldfd s.ft ≠ none := by
        rwa [localTableGet_in (by omega) (by omega)]
      have hnew' : localTableGet p newfd s.ft = some d := by
        rw [localTableGet_in (by omega) (by omega), hd]
      exact lastFree_one ha (hu hfd hold' d hnew' vn hv) hone
    cases hdup : localTableDup2 p ⟨oldfd.toNat, by omega⟩ ⟨newfd.toNat, by omega⟩ s.ft with
    | error e => simp [hdup] at hs
    | ok ru =>
      obtain ⟨err, u⟩ := ru
      have hback := localTableDup2_backed ha hp h hlast hdup
      rw [hdup] at hs
      cases err <;> cases hs <;> exact hback

theorem closing_start {p : ℕ} (ha : Accounted s) (hp : p < s.nprocs) (hu : Unshared (.exit p) s)
    (h : Backed (outsideRefs s) s.ft) :
    Closing (outsideRefs s) p (List.finRange _) s.ft := by
  have hsum : ∀ w, listRefs s.ft p (List.finRange _) w = slotRefs s.ft w p :=
    fun w => (Fin.sum_univ_def _).symm
  have hle : ∀ w, slotRefs s.ft w p ≤ slotTotal s w := fun w => le_total (slotRefs s.ft w) hp
  refine ⟨List.nodup_finRange _, h, ?_, ?_⟩
  · intro w
    have hc := refcount_eq ha w
    have := hle w
    rw [hsum]
    omega
  · intro w hpos heq
    rw [hsum] at hpos heq
    obtain ⟨i, d, hd, hw⟩ := weight_pos.mp hpos
    have hv : descNode s.ft d = some w := by
      by_contra hne
      simp [pointsTo, hne] at hw
    have hc := refcount_eq ha w
    apply hu i d hd w hv
    omega

theorem exit_backed {p : ℕ} (ha : Accounted s) (hr : s.ready p = true) (hu : Unshared (.exit p) s)
    (h : Backed (outsideRefs s) s.ft) (hs : exit p s = .ok s') :
    Backed (outsideRefs s') s'.ft := by
  have hp := ha.lt_of_ready hr
  obtain ⟨-, -, hload⟩ := ready_parts hr
  obtain ⟨ft, hcl, -⟩ := closeSlots_owned hp (List.finRange _) ha.owned ha.pinned_counted
  have hend : Closing (outsideRefs s) p [] ft := by
    apply closeSlots_rule (P := Closing (outsideRefs s) p) hp _ _ ha.owned ha.pinned_counted
      (closing_start ha hp hu h) hcl
    · intro i is u _ hi hP
      exact closing_skip hi hP
    · intro i is d u v _ hd hc hP
      exact closing_clear hd hc hP
  simp only [exit, localTableCloseAll, hcl, setNum_refcount] at hs
  cases hc : decrefAll (s.procs p).cwd ft.refcount with
  | error e => simp [hc] at hs
  | ok c =>
    simp only [hc, Except.ok.injEq] at hs
    subst hs
    refine hend.backed.mono ?_ ?_
    · exact fun w hw => hw
    · intro w
      have h1 := outsideRefs_withProc hp { ft.setNum p 0 with refcount := c } Process.none w
      have h2 := decrefAll_counts hc w
      have hz : pointsTo none w = 0 := by simp [pointsTo]
      have hp0 : (s.procs p).outRefs w = pointsTo (s.procs p).cwd w := by
        simp only [Process.outRefs, hload, hz, Nat.add_zero]
      have hn0 : Process.none.outRefs w = 0 := by
        simp only [Process.outRefs, Process.none, hz]
      show ft.refcount w +
        outsideRefs (s.withProc p { ft.setNum p 0 with refcount := c } Process.none) w ≤ c w + _
      omega

theorem increfSlots_counts {p : ℕ} {is : List Handle} {t t' : State}
    (h : increfSlots p is t = .ok t') : SameHeap t t' ∧ ∀ w, t.refcount w ≤ t'.refcount w := by
  induction is generalizing t with
  | nil =>
    cases h
    exact ⟨⟨rfl, rfl, rfl⟩, fun w => le_refl _⟩
  | cons i is ih =>
    simp only [increfSlots] at h
    split at h
    · exact ih h
    · split at h
      · cases h
      · exact ih h
      · split at h
        · cases h
        · next vn _ c hc =>
          obtain ⟨hsame, hle⟩ := ih h
          refine ⟨⟨hsame.files, hsame.descs, hsame.table⟩, ?_⟩
          intro w
          have h1 := incref_counts hc w
          have h2 := hle w
          simp only at h2
          omega

theorem localTableCopy_counts {p n : ℕ} {t t' : State} (h : localTableCopy p n t = .ok t') :
    SameHeap t t' ∧ ∀ w, t.refcount w ≤ t'.refcount w := by
  simp only [localTableCopy] at h
  split at h
  · cases h
  · next u hu =>
    cases h
    obtain ⟨hsame, hle⟩ := increfSlots_counts hu
    exact ⟨⟨hsame.files, hsame.descs, hsame.table⟩, hle⟩

theorem spawned_backed {ft : State} {pr : Process} (h : Backed (outsideRefs s) s.ft)
    (hl : ∀ w, listed ft w → listed s.ft w)
    (hc : ∀ w, s.ft.refcount w + pr.outRefs w ≤ ft.refcount w) :
    Backed (outsideRefs (spawned ft pr s)) ft := by
  apply h.mono hl
  intro w
  have h1 := outsideRefs_spawned ft pr s w
  have h2 := hc w
  omega

theorem runprogram_backed {cwd : Option ℕ} (h : Backed (outsideRefs s) s.ft)
    (hs : runprogram cwd s = .ok s') : Backed (outsideRefs s') s'.ft := by
  unfold runprogram at hs
  cases hc : increfAll cwd s.ft.refcount with
  | error e => simp [hc] at hs
  | ok c =>
    simp only [hc, Except.ok.injEq] at hs
    subst hs
    show Backed (outsideRefs (spawned (hosted c s.nprocs s.ft) ⟨true, .idle, cwd, none⟩ s))
      (hosted c s.nprocs s.ft)
    apply spawned_backed h
    · exact fun w hw => hw
    · intro w
      have := increfAll_counts hc w
      have hz : pointsTo none w = 0 := by simp [pointsTo]
      simp only [Process.outRefs, hosted]
      omega

theorem fork_backed {p : ℕ} (h : Backed (outsideRefs s) s.ft) (hs : fork p s = .ok s') :
    Backed (outsideRefs s') s'.ft := by
  unfold fork at hs
  cases hcwd : (s.procs p).cwd with
  | none => simp [hcwd] at hs
  | some vn =>
    cases hc : vnodeIncref vn s.ft.refcount with
    | error e => simp [hcwd, hc] at hs
    | ok c =>
      cases hcopy : localTableCopy p s.nprocs (hosted c s.nprocs s.ft) with
      | error e =>
        simp only [hosted] at hcopy
        simp [hcwd, hc, hcopy] at hs
      | ok ft =>
        obtain ⟨hsame, hle⟩ := localTableCopy_counts hcopy
        simp only [hosted] at hcopy
        simp only [hcwd, hc, hcopy, Except.ok.injEq] at hs
        subst hs
        show Backed (outsideRefs (spawned ft ⟨true, .idle, some vn, none⟩ s)) ft
        apply spawned_backed h
        · intro w hw
          exact (listed_sameHeap hsame w).mp hw
        · intro w
          have h1 := incref_counts hc w
          have h2 : c w ≤ ft.refcount w := hle w
          have hz : pointsTo none w = 0 := by simp [pointsTo]
          simp only [Process.outRefs]
          omega

/-- An action that only moves counts and a process's own references. -/
theorem counts_backed {p : ℕ} {c : Refcounts} {pr : Process} (hp : p < s.nprocs)
    (h : Backed (outsideRefs s) s.ft)
    (hc : ∀ w, s.ft.refcount w + pr.outRefs w ≤ c w + (s.procs p).outRefs w) :
    Backed (outsideRefs (s.withProc p { s.ft with refcount := c } pr)) { s.ft with refcount := c } :=
  withProc_backed hp h (fun _ hw => hw) hc

theorem chdir_backed {p vn : ℕ} (ha : Accounted s) (hr : s.ready p = true)
    (h : Backed (outsideRefs s) s.ft) (hs : chdir p vn s = .ok s') :
    Backed (outsideRefs s') s'.ft := by
  unfold chdir at hs
  cases h1 : vnodeIncref vn (acquired vn s.ft.refcount) with
  | error e => simp [h1] at hs
  | ok c =>
    cases h2 : decrefAll (s.procs p).cwd c with
    | error e => simp [h1, h2] at hs
    | ok c' =>
      cases h3 : vnodeDecref vn c' with
      | error e => simp [h1, h2, h3] at hs
      | ok c'' =>
        simp only [h1, h2, h3, Except.ok.injEq] at hs
        subst hs
        apply counts_backed (ha.lt_of_ready hr) h
        intro w
        have e1 := incref_counts h1 w
        have e2 := decrefAll_counts h2 w
        have e3 := decref_counts h3 w
        have e4 := acquired_counts vn s.ft.refcount w
        simp only [Process.outRefs, Process.setCwd]
        omega

theorem execClose_backed {p : ℕ} (ha : Accounted s) (h : Backed (outsideRefs s) s.ft)
    (hs : execClose p s = .ok s') : Backed (outsideRefs s') s'.ft := by
  unfold execClose at hs
  cases hl : (s.procs p).loading with
  | none => simp [hl] at hs
  | some vn =>
    cases hc : vfsClose vn s.ft.refcount with
    | error e => simp [hl, hc] at hs
    | ok c =>
      simp only [hl, hc, Except.ok.injEq] at hs
      subst hs
      have hp : p < s.nprocs := by
        apply ha.lt_of_ne
        intro he
        simp [he, Process.none] at hl
      apply counts_backed hp h
      intro w
      have hd := decref_counts hc w
      have hz : pointsTo none w = 0 := by simp [pointsTo]
      simp only [Process.outRefs, Process.setLoading, hl]
      omega

theorem execAbandon_backed {p : ℕ} (ha : Accounted s) (h : Backed (outsideRefs s) s.ft)
    (hs : execAbandon p s = .ok s') : Backed (outsideRefs s') s'.ft := by
  unfold execAbandon at hs
  cases hl : (s.procs p).loading with
  | none => simp [hl] at hs
  | some vn =>
    simp only [hl, Except.ok.injEq] at hs
    subst hs
    have hp : p < s.nprocs := by
      apply ha.lt_of_ne
      intro he
      simp [he, Process.none] at hl
    refine h.mono ?_ ?_
    · exact fun w hw => hw
    · intro w
      have h1 := outsideRefs_withProc hp s.ft ((s.procs p).setLoading none) w
      have h2 := acquired_counts vn s.others w
      have hz : pointsTo none w = 0 := by simp [pointsTo]
      simp only [Process.outRefs, Process.setLoading, hl, hz] at h1
      simp only [outsideRefs, System.withProc, Process.outRefs, Process.setLoading] at *
      omega

theorem step_backed {a : Action} (ha : Accounted s) (hg : Sound a s) (hu : Unshared a s)
    (h : Backed (outsideRefs s) s.ft) (hs : step a s = .ok s') :
    Backed (outsideRefs s') s'.ft := by
  cases a with
  | runprogram cwd => exact runprogram_backed h hs
  | openGlobal p mem => exact openGlobal_backed ha hg h hs
  | openLocal p mem => exact openLocal_backed ha h hs
  | openUndo p => exact openUndo_backed ha hu h hs
  | execClose p => exact execClose_backed ha h hs
  | execAbandon p => exact execAbandon_backed ha h hs
  | openLookup p vn flags =>
    simp only [step] at hs
    split at hs
    · next hr =>
      cases hs
      apply counts_backed (ha.lt_of_ready hr) h
      intro w
      have := acquired_counts vn s.ft.refcount w
      simp only [Process.outRefs, Process.setOpening]
      omega
    · cases hs
  | execOpen p vn =>
    simp only [step] at hs
    split at hs
    · next hr =>
      cases hs
      obtain ⟨-, -, hload⟩ := ready_parts hr
      apply counts_backed (ha.lt_of_ready hr) h
      intro w
      have := acquired_counts vn s.ft.refcount w
      simp only [Process.outRefs, Process.setLoading, hload]
      omega
    · cases hs
  | close p fd =>
    simp only [step] at hs
    split at hs
    · next hr =>
      cases hc : sysClose p fd s.ft with
      | error e => simp [hc, Except.map] at hs
      | ok ru =>
        have hback := sysClose_backed ha (ha.lt_of_ready hr) hu h hc
        rw [hc] at hs
        cases hs
        exact hback
    · cases hs
  | dup2 p oldfd newfd =>
    simp only [step] at hs
    split at hs
    · next hr =>
      cases hc : sysDup2 p oldfd newfd s.ft with
      | error e => simp [hc, Except.map] at hs
      | ok ru =>
        have hback := sysDup2_backed ha (ha.lt_of_ready hr) hu h hc
        rw [hc] at hs
        cases hs
        exact hback
    · cases hs
  | fork p =>
    simp only [step] at hs
    split at hs
    · exact fork_backed h hs
    · cases hs
  | exit p =>
    simp only [step] at hs
    split at hs
    · next hr => exact exit_backed ha hr hu h hs
    · cases hs
  | chdir p vn =>
    simp only [step] at hs
    split at hs
    · next hr => exact chdir_backed ha hr h hs
    · cases hs

/-- The global table as it should be between system calls. -/
structure Exact (s : System) : Prop where
  count : s.ft.table.numOpenFiles = occupied s.ft.table.files
  unique : ∀ f g vn, s.ft.files.live f = true → s.ft.files.live g = true →
    fileNode s.ft f = some vn → fileNode s.ft g = some vn → f = g
  listed : ∀ file f, s.ft.files.get file = some f → f.isStandard = false →
    ((∃ j, s.ft.table.files j = some file) ↔
      ∃ p i d fd, s.ft.slot p i = some d ∧ s.ft.descs.get d = some fd ∧ fd.file = file)

/-- Neither counts nor files are lost: `Sound`, and the last table reference
to a vnode is given back only when no one else holds the vnode. -/
def Careful (a : Action) (s : System) : Prop := Sound a s ∧ Unshared a s

instance decidableUnshared : ∀ a s, Decidable (Unshared a s)
  | .close p fd, s => inferInstanceAs (Decidable (∀ d ∈ localTableGet p fd s.ft,
      ∀ vn ∈ descNode s.ft d, lastFree s vn 1))
  | .dup2 p oldfd newfd, s => inferInstanceAs (Decidable (oldfd ≠ newfd →
      localTableGet p oldfd s.ft ≠ none → ∀ d ∈ localTableGet p newfd s.ft,
      ∀ vn ∈ descNode s.ft d, lastFree s vn 1))
  | .exit p, s => inferInstanceAs (Decidable (∀ i, ∀ d ∈ s.ft.slot p i,
      ∀ vn ∈ descNode s.ft d, lastFree s vn (slotRefs s.ft vn p)))
  | .openUndo p, s => inferInstanceAs (Decidable (∀ vn ∈ (s.procs p).opening.node, lastFree s vn 1))
  | .runprogram _, _ | .openLookup _ _ _, _ | .openGlobal _ _, _ | .openLocal _ _, _ | .fork _, _
  | .chdir _ _, _ | .execOpen _ _, _ | .execClose _, _ | .execAbandon _, _ => isTrue trivial

instance decidableCareful (a : Action) (s : System) : Decidable (Careful a s) :=
  inferInstanceAs (Decidable (Sound a s ∧ Unshared a s))

theorem live_node (h : Accounted s) {f vn : ℕ} (hl : s.ft.files.live f = true)
    (hv : fileNode s.ft f = some vn) : Held s.ft f := by
  have h3 : 3 ≤ f := by
    by_contra hlt
    have hstd := h.owned.heap.std_file f (by omega)
    simp [fileNode, (Store.get_some.mp hstd).2] at hv
  exact ⟨h3, hl, h.owned.heap.live_table f h3 hl⟩

theorem held_unique (h : Accounted s) {f g vn : ℕ} (hf : Held s.ft f) (hg : Held s.ft g)
    (hv : fileNode s.ft f = some vn) (hw : fileNode s.ft g = some vn) : f = g := by
  obtain ⟨-, -, i, hi⟩ := hf
  obtain ⟨-, -, j, hj⟩ := hg
  have hij := h.owned.heap.table_node i j f g vn hi hj hv hw
  rw [hij, hj] at hi
  exact (Option.some.inj hi).symm

theorem user_of_get (h : Accounted s) {file : ℕ} {f : File} (hget : s.ft.files.get file = some f)
    (hstd : f.isStandard = false) : Held s.ft file := by
  obtain ⟨hl, hcell⟩ := Store.get_some.mp hget
  have h3 : 3 ≤ file := by
    by_contra hlt
    have hst := h.owned.heap.std_file file (by omega)
    rw [hget] at hst
    cases hst
    cases hstd
  exact ⟨h3, hl, h.owned.heap.live_table file h3 hl⟩

theorem openRefs_idle (hidle : ∀ p < s.nprocs, (s.procs p).opening = .idle) (vn : ℕ) :
    openRefs s vn = 0 := by
  by_contra hne
  obtain ⟨p, hp, hpos⟩ := total_pos.mp (Nat.pos_of_ne_zero hne)
  rw [hidle p hp] at hpos
  cases hpos

theorem backed_exact (h : Accounted s) (hb : Backed (outsideRefs s) s.ft)
    (hidle : ∀ p < s.nprocs, (s.procs p).opening = .idle) : Exact s := by
  have hheap := h.owned.heap
  constructor
  · exact hheap.table_count
  · intro f g vn hf hg hv hw
    exact held_unique h (live_node h hf hv) (live_node h hg hw) hv hw
  · intro file f hget hstd
    have hheld := user_of_get h hget hstd
    obtain ⟨-, vn, -, -, -, hv⟩ := user_node hheap hheld
    constructor
    · rintro ⟨j, hj⟩
      have hlt := hb vn ⟨j, file, hj, hv⟩
      have hc := refcount_eq h vn
      have ho := openRefs_idle hidle vn
      have hpos : 0 < tableRefs s.ft s.nprocs vn := by
        simp only [slotTotal] at hc
        omega
      obtain ⟨p, hp, i, d, hd, hnode⟩ := tableRefs_exists hpos
      have h3 : 3 ≤ d := by
        by_contra hlt3
        rw [std_node hheap (by omega)] at hnode
        cases hnode
      obtain ⟨fd, w, hfd, hfile, hw, hdw⟩ := validDesc_user (h.owned.slots p hp i d hd) h3 hheap
      rw [hnode] at hdw
      cases hdw
      exact ⟨p, i, d, fd, hd, hfd, held_unique h hfile hheld hw hv⟩
    · intro _
      exact hheld.2.2

/-- In every run in which last references are given back with care, over any
number of processes, the global table is exact whenever no open is in
progress. -/
theorem careful_run_exact (devices : Refcounts) (as : List Action) (t : System)
    (hg : Runs.Guarded step Careful as (boot devices)) (hr : run as (boot devices) = .ok t)
    (hidle : ∀ p < t.nprocs, (t.procs p).opening = .idle) : Exact t := by
  have hstep : ∀ a s s', Accounted s ∧ Backed (outsideRefs s) s.ft → Careful a s →
      step a s = .ok s' → Accounted s' ∧ Backed (outsideRefs s') s'.ft := by
    intro a s s' hi hc hs
    exact ⟨step_accounted hi.1 hc.1 hs, step_backed hi.1 hc.1 hc.2 hi.2 hs⟩
  have hboot : Backed (outsideRefs (boot devices)) (boot devices).ft := by
    rintro w ⟨j, file, hj, hv⟩
    have hheap := (boot_accounted devices).owned.heap
    have hstd := hheap.std_file file (boot_entry.mp hj).1
    simp [fileNode, (Store.get_some.mp hstd).2] at hv
  obtain ⟨hacc, hback⟩ :=
    Runs.guarded_invariant hstep hg ⟨boot_accounted devices, hboot⟩ hr
  exact backed_exact hacc hback hidle

/-- Two processes share a file, one of them changes to another directory and
exits; the file's last slot is then closed. -/
def sharedThenClosed : List Action :=
  [.runprogram (some 9), .openLookup 0 7 2, .openGlobal 0 true, .openLocal 0 true, .fork 0,
    .openLookup 1 7 0, .openGlobal 1 true, .chdir 0 6, .openLocal 1 true, .exit 0, .close 1 4,
    .close 1 3]

theorem sharedThenClosed_exact :
    ∃ t, run sharedThenClosed (boot console) = .ok t ∧ t.ft.table.numOpenFiles = 3 ∧ Exact t := by
  have hg : Runs.Guarded step Careful sharedThenClosed (boot console) := by decide +kernel
  have hr : ∃ t, run sharedThenClosed (boot console) = .ok t ∧ t.ft.table.numOpenFiles = 3 ∧
      ∀ p < t.nprocs, (t.procs p).opening = .idle := by
    decide +kernel
  obtain ⟨t, hr, hn, hidle⟩ := hr
  exact ⟨t, hr, hn, careful_run_exact console sharedThenClosed t hg hr hidle⟩

/-- The current directory is opened as a file and closed again. -/
def cwdOpened : List Action :=
  [.runprogram (some 9), .openLookup 0 9 0, .openGlobal 0 true, .openLocal 0 true, .close 0 3]

theorem cwdOpened_stale : ∃ t, run cwdOpened (boot console) = .ok t ∧
    (∀ p < t.nprocs, (t.procs p).opening = .idle) ∧ t.ft.table.files 3 = some 3 ∧
    t.ft.table.numOpenFiles = 4 ∧ ¬ Exact t := by
  have hg : Runs.Guarded step Sound cwdOpened (boot console) := by decide +kernel
  have hr : ∃ t, run cwdOpened (boot console) = .ok t ∧
      (∀ p < t.nprocs, (t.procs p).opening = .idle) ∧ t.ft.table.files 3 = some 3 ∧
      t.ft.table.numOpenFiles = 4 ∧ t.ft.files.get 3 = some ⟨some 9, false⟩ ∧
      ∀ p < t.nprocs, ∀ i, ∀ d ∈ t.ft.slot p i, ∀ fd ∈ t.ft.descs.get d, fd.file ≠ 3 := by
    decide +kernel
  obtain ⟨t, hr, hidle, htable, hn, hfile, hslots⟩ := hr
  refine ⟨t, hr, hidle, htable, hn, ?_⟩
  intro hexact
  obtain ⟨p, i, d, fd, hd, hfd, he⟩ := (hexact.listed 3 _ hfile rfl).mp ⟨3, htable⟩
  exact hslots p (lt_of_slot (run_accounted hg hr) hd) i d hd fd hfd he

end OS161.GlobalExact
