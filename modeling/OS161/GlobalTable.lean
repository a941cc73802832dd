import OS161.FileClearing
import OS161.FileSafety

/-!
# The global table and the slots that use it

A `File` leaves the global table when the count of its vnode says that the
last reference is being given back. That count also covers references held
outside the tables: by a current directory, by an executable being loaded, by
the device list. The table is exact as long as the last table reference to a
vnode is never given back while such a reference exists.
-/

set_option autoImplicit false

namespace OS161.GlobalTable

open Function OS161.Slots OS161.Vfs OS161.FileTable OS161.FileOwnership OS161.FileClosing
open OS161.FileOpening OS161.FileClearing OS161.FileRuns OS161.FileAccounting OS161.FileActions
open OS161.FileSafety

/-- Every listed vnode has a reference beyond those in `base`. -/
def Backed (base : ℕ → ℕ) (s : State) : Prop := ∀ w, listed s w → base w < s.refcount w

theorem Backed.mono {base base' : ℕ → ℕ} {s s' : State} (h : Backed base s)
    (hl : ∀ w, listed s' w → listed s w)
    (hc : ∀ w, s.refcount w + base' w ≤ s'.refcount w + base w) : Backed base' s' := by
  intro w hw
  have h1 := h w (hl w hw)
  have h2 := hc w
  omega

/-- Giving back the last reference beyond `base` removes the `File` if `base`
has none. -/
theorem Backed.give {base : ℕ → ℕ} {s s' : State} {x : Option ℕ} (h : Backed base s)
    (hg : Given x s s') (hlast : ∀ vn, x = some vn → s.refcount vn = base vn + 1 → base vn = 0) :
    Backed base s' := by
  intro w hw
  obtain ⟨hl, hne⟩ := (hg.listed w).mp hw
  have h1 := h w hl
  have h2 := hg.counts w
  by_cases hx : x = some w
  · have hone : s.refcount w ≠ 1 := fun he => hne ⟨hx, he⟩
    have hz := hlast w hx
    simp only [pointsTo, hx, if_true] at h2
    omega
  · simp only [pointsTo, hx, if_false] at h2
    omega

theorem listRefs_cons {s : State} {p : ℕ} {i : Handle} {is : List Handle} {d : ℕ}
    (hd : s.slot p i = some d) (w : ℕ) :
    listRefs s p (i::is) w = pointsTo (descNode s d) w + listRefs s p is w := by
  simp [listRefs, hd]

theorem listRefs_cons_none {s : State} {p : ℕ} {i : Handle} {is : List Handle}
    (hi : s.slot p i = none) (w : ℕ) : listRefs s p (i::is) w = listRefs s p is w := by
  simp [listRefs, hi]

theorem listRefs_cleared {s s' : State} {p : ℕ} {i : Handle} {is : List Handle} {d : ℕ}
    (hc : Cleared p i d s s') (hi : i ∉ is) (w : ℕ) : listRefs s' p is w = listRefs s p is w := by
  unfold listRefs
  congr 1
  apply List.map_congr_left
  intro j hj
  have hne : ¬ (p = p ∧ j = i) := fun hx => hi (hx.2 ▸ hj)
  rw [hc.slot, if_neg hne]
  cases s.slot p j with
  | none => rfl
  | some e => simp only [Option.elim_some, hc.descNode]

/-- What the loop over a process's slots keeps: the references in the slots
still to be cleared are beyond `base`, and if they are all there is then
`base` is zero. -/
structure Closing (base : ℕ → ℕ) (p : ℕ) (is : List Handle) (s : State) : Prop where
  nodup : is.Nodup
  backed : Backed base s
  room : ∀ w, base w + listRefs s p is w ≤ s.refcount w
  last : ∀ w, 0 < listRefs s p is w → s.refcount w = base w + listRefs s p is w → base w = 0

theorem closing_skip {base : ℕ → ℕ} {p : ℕ} {i : Handle} {is : List Handle} {s : State}
    (hi : s.slot p i = none) (h : Closing base p (i::is) s) : Closing base p is s := by
  obtain ⟨hn, hb, hr, hl⟩ := h
  simp only [listRefs_cons_none hi] at hr hl
  exact ⟨(List.nodup_cons.mp hn).2, hb, hr, hl⟩

theorem closing_clear {base : ℕ → ℕ} {p d : ℕ} {i : Handle} {is : List Handle} {s s' : State}
    (hd : s.slot p i = some d) (hc : Cleared p i d s s') (h : Closing base p (i::is) s) :
    Closing base p is s' := by
  obtain ⟨hn, hb, hr, hl⟩ := h
  obtain ⟨hi, hnodup⟩ := List.nodup_cons.mp hn
  simp only [listRefs_cons hd] at hr hl
  have hgive := hc.given.counts
  refine ⟨hnodup, ?_, ?_, ?_⟩
  · apply hb.give hc.given
    intro vn hv hone
    have h1 : pointsTo (descNode s d) vn = 1 := by simp [pointsTo, hv]
    have h2 := hr vn
    exact hl vn (by omega) (by omega)
  · intro w
    have h1 := hr w
    have h2 := hgive w
    rw [listRefs_cleared hc hi]
    omega
  · intro w hpos heq
    have h2 := hgive w
    rw [listRefs_cleared hc hi] at hpos heq
    exact hl w (by omega) (by omega)

/-- Whoever gives back the last `k` table references to a vnode finds no other
holder. -/
def lastFree (s : System) (vn k : ℕ) : Prop := slotTotal s vn + openRefs s vn = k → outsideRefs s vn = 0
  deriving Decidable

/-- The last table reference to a vnode is given back only when nothing
outside the tables refers to it. -/
def Unshared : Action → System → Prop
  | .close p fd, s => ∀ d ∈ localTableGet p fd s.ft, ∀ vn ∈ descNode s.ft d, lastFree s vn 1
  | .dup2 p oldfd newfd, s => oldfd ≠ newfd → localTableGet p oldfd s.ft ≠ none →
      ∀ d ∈ localTableGet p newfd s.ft, ∀ vn ∈ descNode s.ft d, lastFree s vn 1
  | .exit p, s => ∀ i, ∀ d ∈ s.ft.slot p i, ∀ vn ∈ descNode s.ft d,
      lastFree s vn (slotRefs s.ft vn p)
  | .openUndo p, s => ∀ vn ∈ (s.procs p).opening.node, lastFree s vn 1
  | _, _ => True

variable {s s' : System}

theorem refcount_eq (h : Accounted s) (vn : ℕ) :
    s.ft.refcount vn = slotTotal s vn + openRefs s vn + outsideRefs s vn := by
  have hc := h.owned.counts vn
  rw [hand_eq] at hc
  simp only [slotTotal]
  omega

theorem lastFree_one (h : Accounted s) {vn : ℕ} (hl : lastFree s vn 1)
    (hone : s.ft.refcount vn = outsideRefs s vn + 1) : outsideRefs s vn = 0 := by
  have hc := refcount_eq h vn
  apply hl
  omega

theorem outsideRefs_withProc {p : ℕ} (hp : p < s.nprocs) (ft : State) (pr : Process) (vn : ℕ) :
    outsideRefs (s.withProc p ft pr) vn + (s.procs p).outRefs vn =
      outsideRefs s vn + pr.outRefs vn := by
  have hother : ∀ q, q ≠ p →
      ((s.withProc p ft pr).procs q).outRefs vn = (s.procs q).outRefs vn := by
    intro q hq
    simp [System.withProc, update_of_ne hq]
  have hsum := total_change hp hother
  have hself : ((s.withProc p ft pr).procs p).outRefs vn = pr.outRefs vn := by
    simp [System.withProc]
  rw [hself] at hsum
  have hn : (s.withProc p ft pr).nprocs = s.nprocs := rfl
  have ho : (s.withProc p ft pr).others = s.others := rfl
  simp only [outsideRefs, hn, ho] at *
  omega

theorem outsideRefs_spawned (ft : State) (pr : Process) (s : System) (vn : ℕ) :
    outsideRefs (spawned ft pr s) vn = outsideRefs s vn + pr.outRefs vn := by
  have hold : total (fun p => ((spawned ft pr s).procs p).outRefs vn) s.nprocs =
      total (fun p => (s.procs p).outRefs vn) s.nprocs := by
    apply total_congr
    intro p hp
    rw [spawned_procs_ne (by omega)]
  have hn : (spawned ft pr s).nprocs = s.nprocs+1 := rfl
  have ho : (spawned ft pr s).others = s.others := rfl
  simp only [outsideRefs, hn, ho, total_succ, hold, spawned_procs_self]
  omega

/-- An action of one process that leaves the global table alone. -/
theorem withProc_backed {p : ℕ} {ft : State} {pr : Process} (hp : p < s.nprocs)
    (h : Backed (outsideRefs s) s.ft) (hl : ∀ w, listed ft w → listed s.ft w)
    (hc : ∀ w, s.ft.refcount w + pr.outRefs w ≤ ft.refcount w + (s.procs p).outRefs w) :
    Backed (outsideRefs (s.withProc p ft pr)) ft := by
  apply h.mono hl
  intro w
  have h1 := outsideRefs_withProc hp ft pr w
  have h2 := hc w
  omega

theorem listed_sameHeap {t t' : State} (h : SameHeap t t') (w : ℕ) : listed t' w ↔ listed t w := by
  simp only [listed, h.table, h.fileNode]

theorem openRefs_pos {p vn : ℕ} (hp : p < s.nprocs) (hv : (s.procs p).opening.node = some vn) :
    0 < openRefs s vn := by
  apply total_pos.mpr
  exact ⟨p, hp, by simp [pointsTo, hv]⟩

theorem openGlobal_backed {p : ℕ} {mem : Bool} (ha : Accounted s) (hg : globalRoom p mem s)
    (h : Backed (outsideRefs s) s.ft) (hs : openGlobal p mem s = .ok s') :
    Backed (outsideRefs s') s'.ft := by
  have ha' := openGlobal_accounted ha hg.1 hg.2 hs
  unfold openGlobal at hs
  split at hs
  · next vn flags hop =>
    have hp : p < s.nprocs := by
      apply ha.lt_of_ne
      intro he
      simp [he, Process.none] at hop
    cases hopen : globalTableOpenFile vn mem s.ft with
    | error e => simp [hopen] at hs
    | ok ru =>
      obtain ⟨r, ft⟩ := ru
      obtain ⟨hcount, hlist⟩ := globalTableOpenFile_listed hopen
      have hbase : ∀ pr : Process, pr.outRefs = (s.procs p).outRefs → ∀ w,
          outsideRefs (s.withProc p ft pr) w = outsideRefs s w := by
        intro pr hpr w
        have := outsideRefs_withProc hp ft pr w
        rw [hpr] at this
        omega
      have hback : ∀ pr : Process, pr.outRefs = (s.procs p).outRefs →
          Backed (outsideRefs (s.withProc p ft pr)) ft := by
        intro pr hpr w hw
        rw [hbase pr hpr, hcount]
        rcases hlist w hw with hold | rfl
        · exact h w hold
        · have hc := refcount_eq ha w
          have hpos : 0 < openRefs s w := openRefs_pos hp (by rw [hop]; rfl)
          omega
      rw [hopen] at hs
      cases r <;> cases hs <;> exact hback _ rfl
  · cases hs

theorem openLocal_backed {p : ℕ} {mem : Bool} (ha : Accounted s)
    (h : Backed (outsideRefs s) s.ft) (hs : openLocal p mem s = .ok s') :
    Backed (outsideRefs s') s'.ft := by
  unfold openLocal at hs
  split at hs
  · next vn file flags hop =>
    have hp : p < s.nprocs := by
      apply ha.lt_of_ne
      intro he
      simp [he, Process.none] at hop
    cases hadd : localTableAddFile p file flags mem s.ft with
    | mk r ft =>
      obtain ⟨hcount, hfiles, htable⟩ := localTableAddFile_frame hadd
      have hl : ∀ w, listed ft w → listed s.ft w := by
        intro w
        simp only [listed, fileNode, hfiles, htable]
        exact fun hw => hw
      have hback : ∀ pr : Process, pr.outRefs = (s.procs p).outRefs →
          Backed (outsideRefs (s.withProc p ft pr)) ft := by
        intro pr hpr
        apply withProc_backed hp h hl
        intro w
        rw [hcount, hpr]
      rw [hadd] at hs
      cases r <;> cases hs <;> exact hback _ rfl
  · cases hs

theorem openUndo_backed {p : ℕ} (ha : Accounted s) (hu : Unshared (.openUndo p) s)
    (h : Backed (outsideRefs s) s.ft) (hs : openUndo p s = .ok s') :
    Backed (outsideRefs s') s'.ft := by
  unfold openUndo at hs
  split at hs
  · next vn file hop =>
    have hp : p < s.nprocs := by
      apply ha.lt_of_ne
      intro he
      simp [he, Process.none] at hop
    have hnode : (s.procs p).opening.node = some vn := by rw [hop]; rfl
    have hheld := ha.owned.pinned file ⟨p, vn, by simp [hop, Opening.pin]⟩
    have hv := ha.agree p vn file (by simp [hop, Opening.pin])
    have hpos : s.ft.refcount vn ≠ 0 := by
      have hc := refcount_eq ha vn
      have ho := openRefs_pos hp hnode
      omega
    cases hdes : fileDestroy file s.ft with
    | error e => simp [hdes] at hs
    | ok ru =>
      obtain ⟨b, ft⟩ := ru
      have hgiven := fileDestroy_given ha.owned.heap hheld hv hpos hdes
      have hback : Backed (outsideRefs s) ft := by
        apply h.give hgiven
        intro w hw hone
        cases hw
        exact lastFree_one ha (hu vn hnode) hone
      rw [hdes] at hs
      cases hs
      apply hback.mono (fun w hw => hw)
      intro w
      have hsum := outsideRefs_withProc hp ft ((s.procs p).setOpening .idle) w
      have hout : ((s.procs p).setOpening .idle).outRefs w = (s.procs p).outRefs w := rfl
      show ft.refcount w + _ ≤ ft.refcount w + _
      omega
  · cases hs

theorem closeSlot_backed {base : ℕ → ℕ} {p d : ℕ} {i : Handle} {ft : State} (ha : Accounted s)
    (hp : p < s.nprocs) (hd : s.ft.slot p i = some d) (h : Backed base s.ft)
    (hlast : ∀ vn, descNode s.ft d = some vn → s.ft.refcount vn = base vn + 1 → base vn = 0)
    (hcl : closeSlot p i s.ft = .ok (none, ft)) : Backed base ft :=
  h.give (closeSlot_cleared ha.owned hp hd hcl).given hlast

theorem localTableGet_in {p : ℕ} {fd : ℤ} (h0 : 0 ≤ fd) (h1 : fd < MAX_LOCAL_TABLE_SIZE) (t : State) :
    localTableGet p fd t = t.slot p ⟨fd.toNat, by omega⟩ := by
  simp only [localTableGet]
  rw [dif_pos ⟨h0, h1⟩]

theorem sysClose_backed {p : ℕ} {fd : ℤ} {r : Option Errno} {ft : State} (ha : Accounted s)
    (hp : p < s.nprocs) (hu : Unshared (.close p fd) s) (h : Backed (outsideRefs s) s.ft)
    (hs : sysClose p fd s.ft = .ok (r, ft)) : Backed (outsideRefs s) ft := by
  simp only [sysClose, localTableCloseFile, nonLockCloseFile] at hs
  split at hs
  · cases hs
    exact h
  · split at hs
    · next hrange =>
      cases hd : s.ft.slot p ⟨fd.toNat, by omega⟩ with
      | none =>
        simp only [closeSlot, hd, Except.ok.injEq, Prod.mk.injEq] at hs
        rw [← hs.2]
        exact h
      | some d =>
        obtain ⟨rfl, -⟩ := closeSlot_spec hd hs
        apply closeSlot_backed ha hp hd h _ hs
        intro vn hv hone
        have hget : localTableGet p fd s.ft = some d := by
          rw [localTableGet_in hrange.1 hrange.2, hd]
        exact lastFree_one ha (hu d hget vn hv) hone
    · cases hs
      exact h

theorem dupInto_counts {p d : ℕ} {i : Handle} {t t' : State} (h : dupInto p i d t = .ok t') (w : ℕ) :
    t.refcount w ≤ t'.refcount w := by
  simp only [dupInto] at h
  split at h
  · cases h
  · split at h
    · split at h
      · cases h
      · cases h
      · split at h
        · cases h
        · next vn _ c hc =>
          cases h
          have := incref_counts hc w
          show t.refcount w ≤ c w
          simp only [setSlot_refcount] at this
          omega
    · cases h
      exact le_refl _

theorem dupInto_backed {base : ℕ → ℕ} {p d : ℕ} {i : Handle} {t t' : State} (h : Backed base t)
    (hs : dupInto p i d t = .ok t') : Backed base t' := by
  apply h.mono (fun w hw => (listed_sameHeap (dupInto_frame hs).1 w).mp hw)
  intro w
  have := dupInto_counts hs w
  omega

end OS161.GlobalTable
