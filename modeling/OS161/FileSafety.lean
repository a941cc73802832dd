import OS161.FileActions

/-!
# Every slot refers to an open file

The accounting is kept by every action except two: a fork that copies a
non-standard descriptor in one of the slots 0 to 2, and an open that has its
vnode and then fails in the global section. As long as neither happens, every
reachable state has each slot pointing to live objects and each vnode counted
exactly.
-/

set_option autoImplicit false

namespace OS161.FileSafety

open Function OS161.Slots OS161.Vfs OS161.FileTable OS161.FileOwnership
open OS161.FileClosing OS161.FileOpening OS161.FileRuns OS161.FileAccounting OS161.FileActions

variable {s : System}

/-- What a slot must lead to, and what each vnode's count must be when no one
outside the tables refers to it. -/
structure Safe (s : System) : Prop where
  slots : ∀ p i d, s.ft.slot p i = some d → ∃ fd f, s.ft.descs.get d = some fd ∧
    s.ft.files.get fd.file = some f ∧ ∃ j, s.ft.table.files j = some fd.file
  counts : ∀ vn, outsideRefs s vn = 0 → s.ft.refcount vn = slotTotal s vn + openRefs s vn

/-- A process about to enter the global section will find or create its file. -/
def globalRoom (p : ℕ) (mem : Bool) (s : System) : Prop :=
  s.ft.table.numOpenFiles ≠ MAX_GLOBAL_TABLE_SIZE ∧
  (mem = true ∨ ∀ vn ∈ (s.procs p).opening.node,
    ∃ j, ∃ file ∈ s.ft.table.files j, fileNode s.ft file = some vn)
  deriving Decidable

/-- The two ways the code loses count, excluded. -/
def Sound : Action → System → Prop
  | .fork p, s => lowStd s.ft p
  | .openGlobal p mem, s => globalRoom p mem s
  | _, _ => True

instance decidableSound : ∀ a s, Decidable (Sound a s)
  | .fork p, s => inferInstanceAs (Decidable (lowStd s.ft p))
  | .openGlobal p mem, s => inferInstanceAs (Decidable (globalRoom p mem s))
  | .runprogram _, _ | .openLookup _ _ _, _ | .openLocal _ _, _ | .openUndo _, _ | .close _ _, _
  | .dup2 _ _ _, _ | .exit _, _ | .chdir _ _, _ | .execOpen _ _, _ | .execClose _, _
  | .execAbandon _, _ => isTrue trivial

theorem boot_entry {devices : Refcounts} {j : Fin MAX_GLOBAL_TABLE_SIZE} {file : ℕ} :
    (globalTableCreate devices).table.files j = some file ↔ file < 3 ∧ j.val = file := by
  simp only [globalTableCreate]
  split
  · simp only [Option.some.injEq]
    omega
  · simp only [reduceCtorEq, false_iff]
    omega

theorem boot_heaps (devices : Refcounts) : Heaps (globalTableCreate devices) := by
  have hstd : ∀ i < 3, (globalTableCreate devices).files.get i = some ⟨none, true⟩ := by
    intro i hi
    have h3 : i = 0 ∨ i = 1 ∨ i = 2 := by omega
    rcases h3 with rfl | rfl | rfl <;> rfl
  constructor
  · exact hstd
  · intro i hi
    have h3 : i = 0 ∨ i = 1 ∨ i = 2 := by omega
    rcases h3 with rfl | rfl | rfl <;> exact ⟨_, rfl⟩
  · intro i f hi hf
    rw [(globalTableCreate devices).files.cell_fresh i hi] at hf
    cases hf
  · intro d fd hd hfd
    rw [(globalTableCreate devices).descs.cell_fresh d hd] at hfd
    cases hfd
  · intro j file hj
    exact (Store.get_some.mp (hstd file (boot_entry.mp hj).1)).1
  · intro j file hlt
    rw [boot_entry]
    exact and_iff_right hlt
  · intro i j f g vn hi hj hf
    have hget := hstd f (boot_entry.mp hi).1
    simp [fileNode, (Store.get_some.mp hget).2] at hf
  · intro file hge hl
    have hlt := (globalTableCreate devices).files.live_lt hl
    have hn : (globalTableCreate devices).files.next = 3 := rfl
    omega
  · show (3 : ℤ) = occupied (fun i : Fin MAX_GLOBAL_TABLE_SIZE => if i.val < 3 then some i.val else none)
    decide +kernel

theorem boot_accounted (devices : Refcounts) : Accounted (boot devices) := by
  refine ⟨⟨boot_heaps devices, ?_, ?_, ?_⟩, ?_, ?_⟩
  · intro p hp
    exact absurd hp (Nat.not_lt_zero p)
  · rintro f ⟨p, vn, hp⟩
    cases hp
  · intro vn
    simp [boot, hand, tableRefs, total, globalTableCreate]
  · intro p vn f hp
    cases hp
  · intro p _
    exact ⟨rfl, fun i => rfl⟩

theorem openLookup_accounted {p vn flags : ℕ} (h : Accounted s) (hr : s.ready p = true) :
    Accounted (s.withProc p { s.ft with refcount := acquired vn s.ft.refcount }
      ((s.procs p).setOpening (.vnode vn flags))) := by
  obtain ⟨-, hop, -⟩ := ready_parts hr
  apply h.counts (h.lt_of_ready hr)
  · intro x hx
    cases hx
  · intro w
    have hc := acquired_counts vn s.ft.refcount w
    have hz : pointsTo Opening.idle.node w = 0 := rfl
    rw [refs_setOpening, refs, hop]
    simp only [Opening.node] at *
    omega

theorem execOpen_accounted {p vn : ℕ} (h : Accounted s) (hr : s.ready p = true) :
    Accounted (s.withProc p { s.ft with refcount := acquired vn s.ft.refcount }
      ((s.procs p).setLoading (some vn))) := by
  obtain ⟨-, -, hl⟩ := ready_parts hr
  apply h.counts (h.lt_of_ready hr)
  · intro x hx
    exact hx
  · intro w
    have hc := acquired_counts vn s.ft.refcount w
    have hz : pointsTo none w = 0 := by simp [pointsTo]
    simp only [refs, Process.outRefs, Process.setLoading, hl]
    omega

theorem step_accounted {a : Action} {s' : System} (h : Accounted s) (hg : Sound a s)
    (hs : step a s = .ok s') : Accounted s' := by
  cases a with
  | runprogram cwd => exact runprogram_accounted h hs
  | openLookup p vn flags =>
    simp only [step] at hs
    split at hs
    · next hr =>
      cases hs
      exact openLookup_accounted h hr
    · cases hs
  | openGlobal p mem => exact openGlobal_accounted h hg.1 hg.2 hs
  | openLocal p mem => exact openLocal_accounted h hs
  | openUndo p => exact openUndo_accounted h hs
  | close p fd =>
    simp only [step] at hs
    split at hs
    · next hr =>
      cases hc : sysClose p fd s.ft with
      | error e => simp [hc, Except.map] at hs
      | ok r =>
        rw [hc] at hs
        cases hs
        exact sysClose_accounted h (h.lt_of_ready hr) hc
    · cases hs
  | dup2 p oldfd newfd =>
    simp only [step] at hs
    split at hs
    · next hr =>
      cases hc : sysDup2 p oldfd newfd s.ft with
      | error e => simp [hc, Except.map] at hs
      | ok r =>
        rw [hc] at hs
        cases hs
        exact sysDup2_accounted h (h.lt_of_ready hr) hc
    · cases hs
  | fork p =>
    simp only [step] at hs
    split at hs
    · next hr => exact fork_accounted h (h.lt_of_ready hr) hg hs
    · cases hs
  | exit p =>
    simp only [step] at hs
    split at hs
    · next hr => exact exit_accounted h hr hs
    · cases hs
  | chdir p vn =>
    simp only [step] at hs
    split at hs
    · next hr => exact chdir_accounted h hr hs
    · cases hs
  | execOpen p vn =>
    simp only [step] at hs
    split at hs
    · next hr =>
      cases hs
      exact execOpen_accounted h hr
    · cases hs
  | execClose p => exact execClose_accounted h hs
  | execAbandon p => exact execAbandon_accounted h hs

theorem run_accounted {devices : Refcounts} {as : List Action} {t : System}
    (hg : Runs.Guarded step Sound as (boot devices)) (hr : run as (boot devices) = .ok t) :
    Accounted t :=
  Runs.guarded_invariant (fun _ _ _ h hg hs => step_accounted h hg hs) hg (boot_accounted devices) hr

theorem lt_of_slot (h : Accounted s) {p d : ℕ} {i : Handle}
    (hd : s.ft.slot p i = some d) : p < s.nprocs := by
  by_contra hge
  rw [(h.unused p (by omega)).2 i] at hd
  cases hd

theorem accounted_safe (h : Accounted s) : Safe s := by
  constructor
  · intro p i d hd
    have hv := h.owned.slots p (lt_of_slot h hd) i d hd
    by_cases hlt : d < 3
    · obtain ⟨flags, hget⟩ := h.owned.heap.std_desc d hlt
      have hj : d < MAX_GLOBAL_TABLE_SIZE := lt_trans hlt (by decide)
      exact ⟨_, _, hget, h.owned.heap.std_file d hlt, ⟨d, hj⟩,
        (h.owned.heap.table_std ⟨d, hj⟩ d hlt).mpr rfl⟩
    · obtain ⟨fd, vn, hget, hheld, -, -⟩ := validDesc_user hv (by omega) h.owned.heap
      obtain ⟨f, -, hf, -⟩ := user_node h.owned.heap hheld
      exact ⟨fd, f, hget, hf, hheld.2.2⟩
  · intro vn hz
    have hc := h.owned.counts vn
    rw [hand_eq, hz] at hc
    simp only [slotTotal]
    omega

/-- In every run that avoids the two defects, over any number of processes and
in any interleaving, the state reached is safe. -/
theorem guarded_run_safe (devices : Refcounts) (as : List Action) (t : System)
    (hg : Runs.Guarded step Sound as (boot devices)) (hr : run as (boot devices) = .ok t) :
    Safe t :=
  accounted_safe (run_accounted hg hr)

/-- A file is opened, forked, duplicated onto slot 1 in the child and closed
in the parent; an open of the same file is still in progress. -/
def sharedOpen : List Action :=
  [.runprogram (some 9), .openLookup 0 7 2, .openGlobal 0 true, .openLocal 0 true, .fork 0,
    .dup2 1 3 1, .close 0 3, .openLookup 0 7 0, .openGlobal 0 false]

theorem sharedOpen_safe : ∃ t, run sharedOpen (boot console) = .ok t ∧ Safe t := by
  have hg : Runs.Guarded step Sound sharedOpen (boot console) := by decide +kernel
  have hr : ∃ t, run sharedOpen (boot console) = .ok t ∧ True := by decide +kernel
  obtain ⟨t, hr, -⟩ := hr
  exact ⟨t, hr, guarded_run_safe console sharedOpen t hg hr⟩

/-- A file is duplicated onto slot 1 and inherited through a fork. The three
slots the two processes close hold all the references that were counted. -/
def lowSlotFork : List Action :=
  [.runprogram (some 9), .openLookup 0 7 2, .openGlobal 0 true, .openLocal 0 true, .dup2 0 3 1,
    .fork 0, .close 0 1, .close 0 3, .close 1 3]

theorem lowSlotFork_unsafe : ∃ t, run lowSlotFork (boot console) = .ok t ∧
    outsideRefs t 7 = 0 ∧ t.ft.slot 1 1 = some 3 ∧ t.ft.descs.get 3 = none ∧ ¬ Safe t := by
  have hr : ∃ t, run lowSlotFork (boot console) = .ok t ∧
      outsideRefs t 7 = 0 ∧ t.ft.slot 1 1 = some 3 ∧ t.ft.descs.get 3 = none := by
    decide +kernel
  obtain ⟨t, hr, hout, hslot, hfree⟩ := hr
  refine ⟨t, hr, hout, hslot, hfree, ?_⟩
  intro hsafe
  obtain ⟨fd, f, hget, -⟩ := hsafe.slots 1 1 3 hslot
  rw [hfree] at hget
  cases hget

end OS161.FileSafety
