import OS161.FileRuns

/-!
# Accounting for every reference of a running system

`Accounted` ties the ownership of references to the processes: what is not in
a slot is held by a device, a current directory, an executable being loaded or
an open in progress, and the file an open in progress has found stays
allocated. The stages of `sys_open` keep it.
-/

set_option autoImplicit false

namespace OS161.FileAccounting

open Function OS161.Slots OS161.Vfs OS161.FileTable OS161.FileOwnership
open OS161.FileClosing OS161.FileOpening OS161.FileRuns

def refs (pr : Process) (vn : ℕ) : ℕ := pointsTo pr.opening.node vn + pr.outRefs vn

theorem refs_setOpening (pr : Process) (o : Opening) (vn : ℕ) :
    refs (pr.setOpening o) vn = pointsTo o.node vn + pr.outRefs vn := rfl

/-- All references that are not in slots. -/
def hand (s : System) : ℕ → ℕ :=
  fun vn => s.others vn + total (fun p => refs (s.procs p) vn) s.nprocs

def pins (s : System) (file : ℕ) : Prop := ∃ p vn, (s.procs p).opening.pin = some (vn, file)

structure Accounted (s : System) : Prop where
  owned : Owned s.nprocs (hand s) (pins s) s.ft
  agree : ∀ p vn file, (s.procs p).opening.pin = some (vn, file) → fileNode s.ft file = some vn
  unused : ∀ p, s.nprocs ≤ p → s.procs p = Process.none ∧ ∀ i, s.ft.slot p i = none

variable {s : System}

theorem hand_eq (s : System) (vn : ℕ) :
    hand s vn = openRefs s vn + outsideRefs s vn := by
  have hsum : total (fun p => refs (s.procs p) vn) s.nprocs =
      openRefs s vn + total (fun p => (s.procs p).outRefs vn) s.nprocs := total_add _ _ _
  simp only [hand, outsideRefs, hsum]
  omega

theorem pin_node {o : Opening} {vn file : ℕ} (h : o.pin = some (vn, file)) : o.node = some vn := by
  cases o <;> simp_all [Opening.pin, Opening.node]

theorem Accounted.lt_of_ne (h : Accounted s) {p : ℕ} (hp : s.procs p ≠ Process.none) :
    p < s.nprocs := by
  by_contra hge
  exact hp (h.unused p (by omega)).1

theorem Accounted.lt_of_ready (h : Accounted s) {p : ℕ} (hr : s.ready p = true) :
    p < s.nprocs := by
  apply h.lt_of_ne
  intro he
  simp [System.ready, he, Process.none] at hr

theorem ready_parts {p : ℕ} (hr : s.ready p = true) :
    (s.procs p).alive = true ∧ (s.procs p).opening = .idle ∧ (s.procs p).loading = none := by
  simpa [System.ready, and_assoc] using hr

theorem ready_refs {p : ℕ} (hr : s.ready p = true) (vn : ℕ) :
    refs (s.procs p) vn = pointsTo (s.procs p).cwd vn := by
  obtain ⟨-, ho, hl⟩ := ready_parts hr
  simp [refs, Process.outRefs, ho, hl, Opening.node, pointsTo]

/-- A file some open in progress has found cannot lose its last reference. -/
theorem Accounted.pinned_counted (h : Accounted s) (g vn : ℕ) (hg : pins s g)
    (hv : fileNode s.ft g = some vn) : 0 < hand s vn := by
  obtain ⟨p, w, hp⟩ := hg
  have hlt : p < s.nprocs := by
    apply h.lt_of_ne
    intro he
    simp [he, Process.none, Opening.pin] at hp
  have hw : w = vn := by
    have := h.agree p w g hp
    rw [hv] at this
    exact (Option.some.inj this).symm
  subst hw
  have hle := le_total (fun q => refs (s.procs q) w) hlt
  have hone : pointsTo (s.procs p).opening.node w = 1 := by simp [pointsTo, pin_node hp]
  simp only [hand, refs] at *
  omega

theorem hand_withProc {p : ℕ} (hp : p < s.nprocs) (ft : State) (pr : Process)
    (vn : ℕ) :
    hand (s.withProc p ft pr) vn + refs (s.procs p) vn =
      hand s vn + refs pr vn := by
  have hother : ∀ q, q ≠ p → refs ((s.withProc p ft pr).procs q) vn = refs (s.procs q) vn := by
    intro q hq
    simp [System.withProc, update_of_ne hq]
  have hsum := total_change hp hother
  have hself : refs ((s.withProc p ft pr).procs p) vn = refs pr vn := by simp [System.withProc]
  rw [hself] at hsum
  have hn : (s.withProc p ft pr).nprocs = s.nprocs := rfl
  have ho : (s.withProc p ft pr).others = s.others := rfl
  simp only [hand, hn, ho] at *
  omega

theorem withProc_pin {p q : ℕ} {ft : State} {pr : Process} {x : ℕ × ℕ}
    (h : ((s.withProc p ft pr).procs q).opening.pin = some x) :
    (q = p ∧ pr.opening.pin = some x) ∨ (q ≠ p ∧ (s.procs q).opening.pin = some x) := by
  by_cases hq : q = p
  · subst hq
    exact .inl ⟨rfl, by simpa [System.withProc] using h⟩
  · exact .inr ⟨hq, by simpa [System.withProc, update_of_ne hq] using h⟩

/-- One process changes its own record and the tables. -/
theorem Accounted.withProc (h : Accounted s) {p : ℕ} (hp : p < s.nprocs) {ft : State}
    {pr : Process} (ho : Owned s.nprocs (hand (s.withProc p ft pr)) (pins (s.withProc p ft pr)) ft)
    (hself : ∀ vn file, pr.opening.pin = some (vn, file) → fileNode ft file = some vn)
    (hnode : ∀ file, pins s file → fileNode ft file = fileNode s.ft file)
    (hslot : ∀ q, s.nprocs ≤ q → ∀ i, ft.slot q i = s.ft.slot q i) :
    Accounted (s.withProc p ft pr) := by
  refine ⟨ho, ?_, ?_⟩
  · intro q vn file hq
    rcases withProc_pin hq with ⟨-, hpr⟩ | ⟨-, hold⟩
    · exact hself vn file hpr
    · exact (hnode file ⟨q, vn, hold⟩).trans (h.agree q vn file hold)
  · intro q hq
    have hne : q ≠ p := by
      have : (s.withProc p ft pr).nprocs = s.nprocs := rfl
      omega
    obtain ⟨hnone, hempty⟩ := h.unused q hq
    refine ⟨by simpa [System.withProc, update_of_ne hne] using hnone, ?_⟩
    intro i
    exact (hslot q hq i).trans (hempty i)

/-- One process changes only counts and its own references. -/
theorem Accounted.counts (h : Accounted s) {p : ℕ} (hp : p < s.nprocs) {c : Refcounts}
    {pr : Process} (hpr : ∀ x, pr.opening.pin = some x → (s.procs p).opening.pin = some x)
    (hc : ∀ w, c w + refs (s.procs p) w = s.ft.refcount w + refs pr w) :
    Accounted (s.withProc p { s.ft with refcount := c } pr) := by
  apply h.withProc hp
  · have hmono : ∀ f, pins (s.withProc p { s.ft with refcount := c } pr) f → pins s f := by
      rintro f ⟨q, vn, hq⟩
      rcases withProc_pin hq with ⟨-, hx⟩ | ⟨-, hx⟩
      · exact ⟨p, vn, hpr _ hx⟩
      · exact ⟨q, vn, hx⟩
    apply (h.owned.mono hmono).withCounts
    intro w
    have h1 := hand_withProc hp { s.ft with refcount := c } pr w
    have h2 := hc w
    omega
  · intro vn file hx
    exact h.agree p vn file (hpr _ hx)
  · intro file _
    rfl
  · intro q _ i
    rfl

/-- The tables change and every process keeps what it holds outside them. -/
theorem Accounted.tables (h : Accounted s) {ft : State}
    (ho : Owned s.nprocs (hand s) (pins s) ft)
    (hnode : ∀ file, pins s file → fileNode ft file = fileNode s.ft file)
    (hslot : ∀ q, s.nprocs ≤ q → ∀ i, ft.slot q i = s.ft.slot q i) :
    Accounted { s with ft := ft } := by
  refine ⟨ho, ?_, ?_⟩
  · intro p vn file hp
    exact (hnode file ⟨p, vn, hp⟩).trans (h.agree p vn file hp)
  · intro q hq
    obtain ⟨hnone, hempty⟩ := h.unused q hq
    refine ⟨hnone, ?_⟩
    intro i
    exact (hslot q hq i).trans (hempty i)

theorem openGlobal_accounted {p : ℕ} {mem : Bool} {s' : System} (h : Accounted s)
    (hfull : s.ft.table.numOpenFiles ≠ MAX_GLOBAL_TABLE_SIZE)
    (hmem : mem = true ∨ ∀ vn ∈ (s.procs p).opening.node,
      ∃ j, ∃ file ∈ s.ft.table.files j, fileNode s.ft file = some vn)
    (hs : openGlobal p mem s = .ok s') : Accounted s' := by
  cases hop : (s.procs p).opening with
  | idle => simp [openGlobal, hop] at hs
  | file vn f flags => simp [openGlobal, hop] at hs
  | undo vn f => simp [openGlobal, hop] at hs
  | vnode vn flags =>
    have hp : p < s.nprocs := by
      apply h.lt_of_ne
      intro he
      simp [he, Process.none] at hop
    have hmem' : mem = true ∨ ∃ file, findFile vn s.ft (List.finRange _) = .ok (some file) := by
      rcases hmem with hm | hfile
      · exact .inl hm
      · obtain ⟨j, file, hj, hv⟩ := hfile vn (by rw [hop]; rfl)
        rcases findFile_spec h.owned.heap vn (List.finRange _) with ⟨g, hg, -⟩ | ⟨-, hmiss⟩
        · exact .inr ⟨g, hg⟩
        · exact absurd hv (hmiss j (List.mem_finRange j) file hj)
    obtain ⟨file, ft, hopen, ho, hheld, hv, hft⟩ := globalTableOpenFile_owned h.owned hfull hmem'
    simp only [openGlobal, hop, hopen, Except.ok.injEq] at hs
    subst hs
    have hnode : ∀ g, pins s g → fileNode ft g = fileNode s.ft g := by
      intro g hg
      rcases hft with rfl | rfl
      · rfl
      · apply opened_fileNode
        have := s.ft.files.live_lt (h.owned.pinned g hg).2.1
        omega
    apply h.withProc hp
    · have hhand : hand (s.withProc p ft ((s.procs p).setOpening (.file vn file flags))) =
          hand s := by
        funext w
        have hsum := hand_withProc hp ft ((s.procs p).setOpening (.file vn file flags)) w
        rw [refs_setOpening, refs, hop] at hsum
        simp only [Opening.node] at hsum
        omega
      rw [hhand]
      refine ⟨ho.heap, ho.slots, ?_, ho.counts⟩
      rintro g ⟨q, w, hq⟩
      rcases withProc_pin hq with ⟨-, hx⟩ | ⟨-, hx⟩
      · simp only [Process.setOpening, Opening.pin, Option.some.injEq, Prod.mk.injEq] at hx
        rw [← hx.2]
        exact hheld
      · exact ho.pinned g ⟨q, w, hx⟩
    · intro w g hx
      simp only [Process.setOpening, Opening.pin, Option.some.injEq, Prod.mk.injEq] at hx
      rw [← hx.1, ← hx.2]
      exact hv
    · exact hnode
    · intro q _ i
      rcases hft with rfl | rfl <;> rfl

/-- A finished open no longer holds its reference. -/
theorem hand_idle {p vn : ℕ} (hp : p < s.nprocs)
    (hv : (s.procs p).opening.node = some vn) (ft : State) :
    hand s = plus (hand (s.withProc p ft ((s.procs p).setOpening .idle))) (some vn) := by
  funext w
  have hsum := hand_withProc hp ft ((s.procs p).setOpening .idle) w
  rw [refs_setOpening, refs, hv] at hsum
  have hz : pointsTo Opening.idle.node w = 0 := rfl
  simp only [plus]
  omega

theorem pins_idle {p g : ℕ} {ft : State}
    (h : pins (s.withProc p ft ((s.procs p).setOpening .idle)) g) : pins s g := by
  obtain ⟨q, w, hq⟩ := h
  rcases withProc_pin hq with ⟨-, hx⟩ | ⟨-, hx⟩
  · cases hx
  · exact ⟨q, w, hx⟩

theorem idle_pin (pr : Process) (x : ℕ × ℕ) : (pr.setOpening .idle).opening.pin ≠ some x := by
  intro h
  cases h

theorem openLocal_accounted {p : ℕ} {mem : Bool} {s' : System} (h : Accounted s)
    (hs : openLocal p mem s = .ok s') : Accounted s' := by
  cases hop : (s.procs p).opening with
  | idle => simp [openLocal, hop] at hs
  | vnode vn flags => simp [openLocal, hop] at hs
  | undo vn f => simp [openLocal, hop] at hs
  | file vn file flags =>
    have hp : p < s.nprocs := by
      apply h.lt_of_ne
      intro he
      simp [he, Process.none] at hop
    have hpin : pins s file := ⟨p, vn, by simp [hop, Opening.pin]⟩
    have hheld := h.owned.pinned file hpin
    have hv := h.agree p vn file (by simp [hop, Opening.pin])
    have hhand := hand_idle hp (by rw [hop]; rfl) s.ft
    have ho := h.owned
    rw [hhand] at ho
    rcases localTableAddFile_owned flags mem ho hp hheld hv with
      ⟨i, d, ft, hadd, hown, hft⟩ | ⟨e, ft, hadd, hown, hft⟩
    · simp only [openLocal, hop, hadd, Except.ok.injEq] at hs
      subst hs
      apply h.withProc hp (hown.mono (fun g => pins_idle))
      · intro w g hx
        exact absurd hx (idle_pin _ _)
      · intro g _
        subst hft
        rfl
      · intro q hq j
        have hne : q ≠ p := by omega
        subst hft
        rw [setSlot_slot, if_neg (fun hqj => hne hqj.1)]
        rfl
    · simp only [openLocal, hop, hadd, Except.ok.injEq] at hs
      subst hs
      have hkeep : hand (s.withProc p ft ((s.procs p).setOpening (.undo vn file))) =
          hand s := by
        funext w
        have hsum := hand_withProc hp ft ((s.procs p).setOpening (.undo vn file)) w
        rw [refs_setOpening, refs, hop] at hsum
        simp only [Opening.node] at hsum
        omega
      apply h.withProc hp
      · rw [hkeep, hhand]
        apply hown.mono
        rintro g ⟨q, w, hq⟩
        rcases withProc_pin hq with ⟨-, hx⟩ | ⟨-, hx⟩
        · simp only [Process.setOpening, Opening.pin, Option.some.injEq, Prod.mk.injEq] at hx
          rw [← hx.2]
          exact hpin
        · exact ⟨q, w, hx⟩
      · intro w g hx
        simp only [Process.setOpening, Opening.pin, Option.some.injEq, Prod.mk.injEq] at hx
        rw [← hx.1, ← hx.2]
        rcases hft with rfl | rfl <;> exact hv
      · intro g _
        rcases hft with rfl | rfl <;> rfl
      · intro q _ j
        rcases hft with rfl | rfl <;> rfl

theorem openUndo_accounted {p : ℕ} {s' : System} (h : Accounted s)
    (hs : openUndo p s = .ok s') : Accounted s' := by
  cases hop : (s.procs p).opening with
  | idle => simp [openUndo, hop] at hs
  | vnode vn flags => simp [openUndo, hop] at hs
  | file vn f flags => simp [openUndo, hop] at hs
  | undo vn file =>
    have hp : p < s.nprocs := by
      apply h.lt_of_ne
      intro he
      simp [he, Process.none] at hop
    have hheld := h.owned.pinned file ⟨p, vn, by simp [hop, Opening.pin]⟩
    have hv := h.agree p vn file (by simp [hop, Opening.pin])
    have ho := h.owned.mono (fun g (hg : pins (s.withProc p s.ft ((s.procs p).setOpening .idle)) g) =>
      pins_idle hg)
    rw [hand_idle hp (by rw [hop]; rfl) s.ft] at ho
    -- a file another open has found is counted once more there
    have hcount : ∀ g, pins (s.withProc p s.ft ((s.procs p).setOpening .idle)) g →
        fileNode s.ft g = some vn →
        0 < hand (s.withProc p s.ft ((s.procs p).setOpening .idle)) vn := by
      rintro g ⟨q, w, hq⟩ hg
      rcases withProc_pin hq with ⟨-, hx⟩ | ⟨hne, hx⟩
      · exact absurd hx (idle_pin _ _)
      · have hw : w = vn := by
          have := h.agree q w g hx
          rw [hg] at this
          exact (Option.some.inj this).symm
        have hlt : q < s.nprocs := by
          apply h.lt_of_ne
          intro he
          simp [he, Process.none, Opening.pin] at hx
        have hle := le_total
          (fun r => refs ((s.withProc p s.ft ((s.procs p).setOpening .idle)).procs r) vn) hlt
        have hone : pointsTo (s.procs q).opening.node vn = 1 := by
          simp [pointsTo, pin_node hx, hw]
        have hsame : (s.withProc p s.ft ((s.procs p).setOpening .idle)).procs q = s.procs q := by
          simp [System.withProc, update_of_ne hne]
        rw [hsame] at hle
        have hn : (s.withProc p s.ft ((s.procs p).setOpening .idle)).nprocs = s.nprocs := rfl
        simp only [hand, refs, hn] at *
        omega
    obtain ⟨b, ft, hdes, hown⟩ := fileDestroy_owned ho hheld hv hcount
    have hframe := fileDestroy_frame hdes
    simp only [openUndo, hop, hdes, Except.ok.injEq] at hs
    subst hs
    apply h.withProc hp hown
    · intro w g hx
      exact absurd hx (idle_pin _ _)
    · intro g _
      exact hframe.fileNode g
    · intro q _ i
      exact hframe.slot q i

end OS161.FileAccounting
