import Mathlib.Data.List.Count
import OS161.KmallocRuns

/-!
# Handing out pagerefs

`allocpageref` marks a pageref as in use before it makes sure that there is a
page for it, and takes nothing back if `alloc_kpages` fails. Here the calls of
`allocpageref` and `freepageref` follow one another, with the answers of
`alloc_kpages` as an input.
-/

set_option autoImplicit false

namespace OS161.Pagerefs

open Function OS161.PhysicalMemory OS161.Kmalloc

variable {T : Type*}

/-- `out` records the pagerefs that have been handed out and not yet freed. -/
structure Pool (T : Type*) where
  heap : Heap T
  out : List ℕ

/-- With an allocation comes what `alloc_kpages` returns if it is called; 0 is a failure. -/
inductive Act where
  | allocpageref (va : ℕ)
  | freepageref (p : ℕ)

/-- Nobody else can have set the page during `alloc_kpages`, so the branch for that is not taken. -/
def allocpagerefpage (s : Heap T) (w va : ℕ) : Except Stop (Heap T) :=
  let root := s.kheaproots w
  if root.page ≠ 0 then .error .assertion
  else if va = 0 then .ok s
  else if va % pageSize ≠ 0 then .error .assertion
  else .ok (s.setRoot w { root with page := va })

/-- `if (root->page == NULL) allocpagerefpage(root)`. -/
def ensurePage (s : Heap T) (w va : ℕ) : Except Stop (Heap T) :=
  if (s.kheaproots w).page = 0 then allocpagerefpage s w va else .ok s

def allocpageref (s : Heap T) (va : ℕ) : Except Stop (Option ℕ × Heap T) :=
  match s.unusedPageref with
  | none => .ok (none, s)
  | some (w, j) =>
    match ensurePage (s.takePageref w j) w va with
    | .error e => .error e
    | .ok s' => if (s'.kheaproots w).page = 0 then .ok (none, s') else .ok (some (s'.refAddr w j), s')

def step : Act → Pool T → Except Stop (Pool T)
  | .allocpageref va, s =>
    match allocpageref s.heap va with
    | .error e => .error e
    | .ok (none, h) => .ok { s with heap := h }
    | .ok (some p, h) => .ok ⟨h, p :: s.out⟩
  | .freepageref p, s =>
    match s.heap.freepageref p with
    | .error e => .error e
    | .ok h => .ok ⟨h, s.out.erase p⟩

/-- No pageref is in use yet. -/
def boot (refs : ℕ → Pageref) (mem : ℕ → ℕ) : Pool T := ⟨initial refs mem, []⟩

/-- The set bits of `pagerefs_inuse`. -/
def bits (root : KheapRoot) : ℕ := (List.range npagerefsPerPage).countP root.pagerefsInuse

/-- A pageref lies on the page of a root. -/
def On (root : KheapRoot) (p : ℕ) : Bool :=
  decide (root.page ≠ 0 ∧ root.page ≤ p ∧ p < root.page + pageSize)

structure Exact (s : Pool T) : Prop where
  bits : ∀ w < numPagerefpages, (s.heap.kheaproots w).numinuse = bits (s.heap.kheaproots w)
  out : ∀ w < numPagerefpages, (s.heap.kheaproots w).numinuse = s.out.countP (On (s.heap.kheaproots w))
  pageless : ∀ w < numPagerefpages, (s.heap.kheaproots w).page = 0 → Pagerefs.bits (s.heap.kheaproots w) = 0

/-- The call takes a pageref of a root that has no page. -/
def WantsPage (s : Pool T) : Prop := ∃ w j, s.heap.unusedPageref = some (w, j) ∧ (s.heap.kheaproots w).page = 0

/-- `alloc_kpages` returns pages that are not in use, and what is freed has been handed out. -/
def Proper : Act → Pool T → Prop
  | .allocpageref va, s => va = 0 ∨ va % pageSize = 0 ∧ ∀ w < numPagerefpages, (s.heap.kheaproots w).page ≠ va
  | .freepageref p, s => p ∈ s.out

/-- If `alloc_kpages` is called, it does not fail. -/
def Backed : Act → Pool T → Prop
  | .allocpageref va, s => WantsPage s → va ≠ 0
  | .freepageref _, _ => True

/-- Every root has a page of its own. -/
structure Pages (roots : ℕ → KheapRoot) : Prop where
  aligned : ∀ w < numPagerefpages, (roots w).page % pageSize = 0
  apart : ∀ w < numPagerefpages, ∀ x < numPagerefpages, (roots w).page ≠ 0 → (roots w).page = (roots x).page → w = x

/-- Every pageref that has been handed out is in use, and lies on a page. -/
structure Sound (s : Pool T) : Prop where
  exact : Exact s
  pages : Pages s.heap.kheaproots
  filled : ∀ p ∈ s.out, ∃ w < numPagerefpages, ∃ j < npagerefsPerPage, (s.heap.kheaproots w).page ≠ 0 ∧
    p = s.heap.refAddr w j ∧ (s.heap.kheaproots w).pagerefsInuse j = true
  nodup : s.out.Nodup

variable {s : Pool T} {h h' : Heap T} {w x j i p va : ℕ} {root : KheapRoot}

theorem on_congr {root' : KheapRoot} (hpage : root.page = root'.page) : On root = On root' := by
  funext p
  simp only [On, hpage]

theorem refAddr_inj (hp : Pages h.kheaproots) (hw : w < numPagerefpages) (hx : x < numPagerefpages)
    (hj : j < npagerefsPerPage) (hi : i < npagerefsPerPage) (hpage : (h.kheaproots w).page ≠ 0)
    (heq : h.refAddr w j = h.refAddr x i) : w = x ∧ j = i := by
  have hwa := hp.aligned w hw
  have hxa := hp.aligned x hx
  unfold Heap.refAddr sizeofPageref at heq
  unfold npagerefsPerPage at hj hi
  unfold pageSize at hwa hxa
  have hsame : (h.kheaproots w).page = (h.kheaproots x).page := by omega
  exact ⟨hp.apart w hw x hx hpage hsame, by omega⟩

/-- A pageref lies on the page of its own root only. -/
theorem on_refAddr (hp : Pages h.kheaproots) (hw : w < numPagerefpages) (hx : x < numPagerefpages)
    (hj : j < npagerefsPerPage) (hpage : (h.kheaproots w).page ≠ 0) :
    On (h.kheaproots x) (h.refAddr w j) = decide (x = w) := by
  have hwa := hp.aligned w hw
  have hxa := hp.aligned x hx
  unfold npagerefsPerPage at hj
  unfold pageSize at hwa hxa
  unfold On Heap.refAddr sizeofPageref pageSize
  rw [decide_eq_decide]
  constructor
  · rintro ⟨hx0, hle, hlt⟩
    have hsame : (h.kheaproots x).page = (h.kheaproots w).page := by omega
    exact hp.apart x hx w hw hx0 hsame
  · rintro rfl
    omega

theorem bits_zero_iff (root : KheapRoot) : bits root = 0 ↔ ∀ j < npagerefsPerPage, root.pagerefsInuse j = false := by
  simp [bits, List.countP_eq_zero]

/-- What `allocpageref` has done to the root when it returns a pageref. -/
structure Handed (s : Pool T) (w j : ℕ) (root : KheapRoot) : Prop where
  unused : s.heap.unusedPageref = some (w, j)
  inuse : root.pagerefsInuse = update (s.heap.kheaproots w).pagerefsInuse j true
  numinuse : root.numinuse = (s.heap.kheaproots w).numinuse + 1
  paged : root.page ≠ 0
  aligned : root.page % pageSize = 0
  page : root.page = (s.heap.kheaproots w).page ∨
    (s.heap.kheaproots w).page = 0 ∧ ∀ x < numPagerefpages, (s.heap.kheaproots x).page ≠ root.page

theorem Handed.pages (hh : Handed s w j root) (hs : Sound s) : Pages (update s.heap.kheaproots w root) := by
  constructor
  · intro x hx
    by_cases hxw : x = w
    · rw [hxw, update_self]
      exact hh.aligned
    · rw [update_of_ne hxw]
      exact hs.pages.aligned x hx
  · intro x hx y hy hpage heq
    by_cases hxw : x = w
    · subst hxw
      by_cases hyx : y = x
      · exact hyx.symm
      · rw [update_self, update_of_ne hyx] at heq
        obtain hsame | ⟨-, hfresh⟩ := hh.page
        · rw [update_self, hsame] at hpage
          exact hs.pages.apart x hx y hy hpage (hsame ▸ heq)
        · exact absurd heq.symm (hfresh y hy)
    · by_cases hyw : y = w
      · subst hyw
        rw [update_of_ne hxw, update_self] at heq
        obtain hsame | ⟨-, hfresh⟩ := hh.page
        · rw [update_of_ne hxw] at hpage
          exact hs.pages.apart x hx y hy hpage (hsame ▸ heq)
        · exact absurd heq (hfresh x hx)
      · rw [update_of_ne hxw] at hpage heq
        rw [update_of_ne hyw] at heq
        exact hs.pages.apart x hx y hy hpage heq

/-- The pagerefs handed out before are where they were. -/
theorem Handed.filled (hh : Handed s w j root) (hs : Sound s) (hroots : h'.kheaproots = update s.heap.kheaproots w root)
    (hp : p ∈ s.out) : ∃ x < numPagerefpages, ∃ i < npagerefsPerPage, (h'.kheaproots x).page ≠ 0 ∧
      p = h'.refAddr x i ∧ (s.heap.kheaproots x).pagerefsInuse i = true ∧
      On (s.heap.kheaproots w) p = decide (w = x) := by
  obtain ⟨hw, -, -⟩ := unusedPageref_spec hh.unused
  obtain ⟨x, hx, i, hi, hpage, rfl, hin⟩ := hs.filled p hp
  have hsame : (h'.kheaproots x).page = (s.heap.kheaproots x).page := by
    rw [hroots]
    by_cases hxw : x = w
    · subst hxw
      rw [update_self]
      obtain hsame | ⟨h0, -⟩ := hh.page
      · exact hsame
      · exact absurd h0 hpage
    · rw [update_of_ne hxw]
  refine ⟨x, hx, i, hi, by rwa [hsame], ?_, hin, on_refAddr hs.pages hx hw hi hpage⟩
  unfold Heap.refAddr
  rw [hsame]

theorem Handed.exact (hh : Handed s w j root) (hs : Sound s)
    (hroots : h'.kheaproots = update s.heap.kheaproots w root) : Exact ⟨h', h'.refAddr w j :: s.out⟩ := by
  obtain ⟨hw, hj, hunused⟩ := unusedPageref_spec hh.unused
  have hpages : Pages h'.kheaproots := by
    rw [hroots]
    exact hh.pages hs
  have hpaged : (h'.kheaproots w).page ≠ 0 := by
    rw [hroots, update_self]
    exact hh.paged
  refine ⟨?_, ?_, ?_⟩
  · intro x hx
    show (h'.kheaproots x).numinuse = bits (h'.kheaproots x)
    rw [hroots]
    by_cases hxw : x = w
    · subst hxw
      rw [update_self, bits, hh.inuse, countP_update_true hj hunused, hh.numinuse]
      exact congrArg (· + 1) (hs.exact.bits x hx)
    · rw [update_of_ne hxw]
      exact hs.exact.bits x hx
  · intro x hx
    show (h'.kheaproots x).numinuse = (h'.refAddr w j :: s.out).countP (On (h'.kheaproots x))
    rw [List.countP_cons, on_refAddr hpages hw hx hj hpaged]
    by_cases hxw : x = w
    · subst hxw
      have hold : s.out.countP (On (h'.kheaproots x)) = s.out.countP (On (s.heap.kheaproots x)) := by
        apply List.countP_congr
        intro p hp
        obtain ⟨y, hy, i, hi, hpage, rfl, -, hon⟩ := hh.filled hs hroots hp
        rw [hon, on_refAddr hpages hy hx hi hpage]
      rw [hold, ← hs.exact.out x hx, hroots, update_self, hh.numinuse]
      simp
    · have hsame : h'.kheaproots x = s.heap.kheaproots x := by rw [hroots, update_of_ne hxw]
      rw [hsame, hs.exact.out x hx]
      simp [hxw]
  · intro x hx hpage
    have hxw : x ≠ w := by
      rintro rfl
      exact hpaged hpage
    have hsame : h'.kheaproots x = s.heap.kheaproots x := by rw [hroots, update_of_ne hxw]
    show bits (h'.kheaproots x) = 0
    rw [hsame]
    exact hs.exact.pageless x hx (hsame ▸ hpage)

theorem Handed.sound (hh : Handed s w j root) (hs : Sound s)
    (hroots : h'.kheaproots = update s.heap.kheaproots w root) : Sound ⟨h', h'.refAddr w j :: s.out⟩ := by
  obtain ⟨hw, hj, hunused⟩ := unusedPageref_spec hh.unused
  have hpages : Pages h'.kheaproots := by
    rw [hroots]
    exact hh.pages hs
  have hpaged : (h'.kheaproots w).page ≠ 0 := by
    rw [hroots, update_self]
    exact hh.paged
  have hinuse : ∀ x i, (s.heap.kheaproots x).pagerefsInuse i = true → (h'.kheaproots x).pagerefsInuse i = true := by
    intro x i hin
    rw [hroots]
    by_cases hxw : x = w
    · subst hxw
      rw [update_self, hh.inuse]
      by_cases hij : i = j
      · rw [hij, update_self]
      · rwa [update_of_ne hij]
    · rwa [update_of_ne hxw]
  refine ⟨hh.exact hs hroots, hpages, ?_, ?_⟩
  · intro p hp
    obtain rfl | hp := List.mem_cons.mp hp
    · refine ⟨w, hw, j, hj, hpaged, rfl, ?_⟩
      show (h'.kheaproots w).pagerefsInuse j = true
      rw [hroots, update_self, hh.inuse, update_self]
    · obtain ⟨x, hx, i, hi, hpage, heq, hin, -⟩ := hh.filled hs hroots hp
      exact ⟨x, hx, i, hi, hpage, heq, hinuse x i hin⟩
  · apply List.nodup_cons.mpr
    refine ⟨?_, hs.nodup⟩
    intro hmem
    obtain ⟨x, hx, i, hi, hpage, heq, hin, -⟩ := hh.filled hs hroots hmem
    obtain ⟨rfl, rfl⟩ := refAddr_inj hpages hw hx hj hi hpaged heq
    rw [hunused] at hin
    cases hin

theorem takePageref_roots : (h.takePageref w j).kheaproots = update h.kheaproots w
    { h.kheaproots w with
      pagerefsInuse := update (h.kheaproots w).pagerefsInuse j true
      numinuse := (h.kheaproots w).numinuse + 1 } := rfl

/-- With a page, or the prospect of one, a pageref is handed out. -/
theorem allocpageref_sound (hs : Sound s) (hp : Proper (.allocpageref va) s) (hb : Backed (.allocpageref va) s) :
    ∃ s', step (.allocpageref va) s = .ok s' ∧ Sound s' := by
  cases hun : s.heap.unusedPageref with
  | none => exact ⟨s, by simp [step, allocpageref, hun], hs⟩
  | some x =>
    obtain ⟨w, j⟩ := x
    obtain ⟨hw, hj, hunused⟩ := unusedPageref_spec hun
    by_cases hpage : (s.heap.kheaproots w).page = 0
    · have hva := hb ⟨w, j, hun, hpage⟩
      obtain ⟨haligned, hfresh⟩ := hp.resolve_left hva
      let root := { (s.heap.takePageref w j).kheaproots w with page := va }
      have hh : Handed s w j root := by
        refine ⟨hun, ?_, ?_, hva, haligned, .inr ⟨hpage, hfresh⟩⟩
        · simp [root, takePageref_roots]
        · simp [root, takePageref_roots]
      have hsound : Sound ⟨(s.heap.takePageref w j).setRoot w root, _⟩ :=
        hh.sound hs (by simp [takePageref_roots])
      refine ⟨_, ?_, hsound⟩
      simp [step, allocpageref, hun, ensurePage, allocpagerefpage, hpage, hva, haligned, root]
    · have hh : Handed s w j ((s.heap.takePageref w j).kheaproots w) := by
        refine ⟨hun, ?_, ?_, by simpa using hpage, by simpa using hs.pages.aligned w hw, .inl (by simp)⟩
        · simp [takePageref_roots]
        · simp [takePageref_roots]
      have hsound : Sound ⟨s.heap.takePageref w j, _⟩ := hh.sound hs (by simp [takePageref_roots])
      refine ⟨_, ?_, hsound⟩
      simp [step, allocpageref, hun, ensurePage, hpage]

/-- `freepageref` finds the root of a pageref; the roots before it are empty or have other pages. -/
theorem freepagerefFrom_finds (hs : Sound s) (hw : w < numPagerefpages) (hj : j < npagerefsPerPage)
    (hpage : (s.heap.kheaproots w).page ≠ 0) (hin : (s.heap.kheaproots w).pagerefsInuse j = true)
    {ws : List ℕ} (hmem : w ∈ ws) (hws : ∀ x ∈ ws, x < numPagerefpages) :
    s.heap.freepagerefFrom (s.heap.refAddr w j) ws =
      .ok (s.heap.setRoot w ((s.heap.kheaproots w).without j)) := by
  have hself : (s.heap.refAddr w j - (s.heap.kheaproots w).page) / sizeofPageref = j := by
    unfold Heap.refAddr sizeofPageref
    omega
  have hnum : 0 < (s.heap.kheaproots w).numinuse := by
    rw [hs.exact.bits w hw, bits]
    exact List.countP_pos_iff.mpr ⟨j, List.mem_range.mpr hj, hin⟩
  induction ws with
  | nil => cases hmem
  | cons x ws ih =>
    have hx := hws x (by simp)
    have hrest := fun hxw : w ≠ x =>
      ih ((List.mem_cons.mp hmem).resolve_left hxw) (fun y hy => hws y (List.mem_cons_of_mem x hy))
    simp only [Heap.freepagerefFrom]
    by_cases hx0 : (s.heap.kheaproots x).page = 0
    · have hempty : (s.heap.kheaproots x).numinuse = 0 := by
        rw [hs.exact.bits x hx]
        exact hs.exact.pageless x hx hx0
      rw [if_pos hx0, if_pos hempty]
      apply hrest
      rintro rfl
      exact hpage hx0
    · rw [if_neg hx0]
      by_cases hxw : w = x
      · subst hxw
        have hon : (s.heap.kheaproots w).page ≤ s.heap.refAddr w j ∧
            (s.heap.refAddr w j - (s.heap.kheaproots w).page) / sizeofPageref < npagerefsPerPage := by
          rw [hself]
          exact ⟨Nat.le_add_right _ _, hj⟩
        rw [if_pos hon, hself, if_pos ⟨hin, hnum⟩]
        rfl
      · have hoff : ¬((s.heap.kheaproots x).page ≤ s.heap.refAddr w j ∧
            (s.heap.refAddr w j - (s.heap.kheaproots x).page) / sizeofPageref < npagerefsPerPage) := by
          rintro ⟨hle, hlt⟩
          have hon := on_refAddr hs.pages hw hx hj hpage
          rw [decide_eq_false (Ne.symm hxw)] at hon
          have hnot := of_decide_eq_false hon
          unfold sizeofPageref npagerefsPerPage at hlt
          unfold pageSize at hnot
          omega
        rw [if_neg hoff]
        exact hrest hxw

theorem freepageref_sound (hs : Sound s) (hp : p ∈ s.out) : ∃ s', step (.freepageref p) s = .ok s' ∧ Sound s' := by
  obtain ⟨w, hw, j, hj, hpage, rfl, hin⟩ := hs.filled p hp
  have hfind : s.heap.freepageref (s.heap.refAddr w j) = .ok (s.heap.setRoot w ((s.heap.kheaproots w).without j)) :=
    freepagerefFrom_finds hs hw hj hpage hin (List.mem_range.mpr hw) (fun x hx => List.mem_range.mp hx)
  refine ⟨⟨s.heap.setRoot w ((s.heap.kheaproots w).without j), s.out.erase (s.heap.refAddr w j)⟩,
    by simp only [step, hfind], ?_⟩
  have hsame : ∀ x, ((s.heap.setRoot w ((s.heap.kheaproots w).without j)).kheaproots x).page =
      (s.heap.kheaproots x).page := by
    intro x
    by_cases hxw : x = w
    · simp [hxw, KheapRoot.without]
    · simp [hxw]
  have hother : ∀ x, x ≠ w → (s.heap.setRoot w ((s.heap.kheaproots w).without j)).kheaproots x = s.heap.kheaproots x :=
    fun x hxw => update_of_ne hxw _ _
  refine ⟨⟨?_, ?_, ?_⟩, ⟨?_, ?_⟩, ?_, hs.nodup.erase _⟩
  · intro x hx
    by_cases hxw : x = w
    · subst hxw
      have hcount := countP_update_false (n := npagerefsPerPage) hj hin
      have hold := hs.exact.bits x hx
      unfold bits at hold
      simp only [setRoot_kheaproots, update_self, KheapRoot.without, bits]
      omega
    · rw [hother x hxw]
      exact hs.exact.bits x hx
  · intro x hx
    rw [on_congr (hsame x)]
    have herase : (s.out.erase (s.heap.refAddr w j)).countP (On (s.heap.kheaproots x)) =
        s.out.countP (On (s.heap.kheaproots x)) - if x = w then 1 else 0 := by
      rw [List.countP_erase, on_refAddr hs.pages hw hx hj hpage]
      simp [hp]
    rw [herase, ← hs.exact.out x hx]
    by_cases hxw : x = w
    · simp [hxw, KheapRoot.without]
    · rw [hother x hxw, if_neg hxw, Nat.sub_zero]
  · intro x hx hx0
    have hxw : x ≠ w := by
      rintro rfl
      rw [hsame] at hx0
      exact hpage hx0
    rw [hother x hxw] at hx0 ⊢
    exact hs.exact.pageless x hx hx0
  · intro x hx
    rw [hsame]
    exact hs.pages.aligned x hx
  · intro x hx y hy hne heq
    rw [hsame] at hne heq
    rw [hsame] at heq
    exact hs.pages.apart x hx y hy hne heq
  · intro q hq
    obtain ⟨hqp, hq⟩ := (hs.nodup.mem_erase_iff).mp hq
    obtain ⟨y, hy, i, hi, hpy, rfl, hiny⟩ := hs.filled q hq
    refine ⟨y, hy, i, hi, by rwa [hsame], ?_, ?_⟩
    · simp only [Heap.refAddr, hsame]
    · by_cases hyw : y = w
      · subst hyw
        have hij : i ≠ j := by
          rintro rfl
          exact hqp rfl
        simp [KheapRoot.without, hij, hiny]
      · rwa [hother y hyw]

theorem step_sound {a : Act} (hs : Sound s) (hp : Proper a s) (hb : Backed a s) : ∃ s', step a s = .ok s' ∧ Sound s' := by
  cases a with
  | allocpageref va => exact allocpageref_sound hs hp hb
  | freepageref p => exact freepageref_sound hs hp

theorem boot_sound (refs : ℕ → Pageref) (mem : ℕ → ℕ) : Sound (boot refs mem : Pool T) := by
  refine ⟨⟨?_, ?_, ?_⟩, ⟨?_, ?_⟩, ?_, ?_⟩ <;> simp [boot, initial, bits]

/-- After a failure the bit stays set in a root that has no page. -/
theorem step_unbacked {a : Act} {s' : Pool T} (hb : ¬Backed a s) (hstep : step a s = .ok s') : ¬Exact s' := by
  cases a with
  | freepageref p => exact absurd trivial hb
  | allocpageref va =>
    have hfails : WantsPage s ∧ va = 0 := by
      simpa only [Backed, not_forall, Decidable.not_not, exists_prop] using hb
    obtain ⟨⟨w, j, hun, hpage⟩, rfl⟩ := hfails
    obtain ⟨hw, hj, -⟩ := unusedPageref_spec hun
    have hs' : s' = { s with heap := s.heap.takePageref w j } := by
      simp [step, allocpageref, hun, ensurePage, allocpagerefpage, hpage] at hstep
      exact hstep.symm
    subst hs'
    intro hexact
    have hzero := hexact.pageless w hw (by simpa using hpage)
    have hclear := (bits_zero_iff _).mp hzero j hj
    rw [takePageref_roots, update_self] at hclear
    simp at hclear

/-- All along, in every sequence of calls, the roots are as they should be and no
assertion fails, exactly if `alloc_kpages` fails in none of them. -/
theorem pagerefs_exact_iff (refs : ℕ → Pageref) (mem : ℕ → ℕ) (as : List Act)
    (hp : Runs.Guarded step Proper as (boot refs mem : Pool T)) :
    Runs.Guarded step Backed as (boot refs mem : Pool T) ↔
      ∀ bs, bs <+: as → ∃ t, Runs.run step bs (boot refs mem : Pool T) = .ok t ∧ Exact t :=
  Runs.guarded_iff_good (fun _ _ hs ha hb => step_sound hs ha hb) (fun _ _ _ _ _ hb hstep => step_unbacked hb hstep)
    (fun _ hs => hs.exact) hp (boot_sound refs mem)

instance decidableWantsPage : Decidable (WantsPage s) :=
  match hun : s.heap.unusedPageref with
  | none => isFalse (fun ⟨_, _, h, _⟩ => by rw [hun] at h; cases h)
  | some (w, j) => decidable_of_iff ((s.heap.kheaproots w).page = 0)
      ⟨fun h => ⟨w, j, hun, h⟩, fun ⟨_, _, h, h0⟩ => by rw [hun] at h; cases h; exact h0⟩

instance decidableProper : ∀ (a : Act) (s : Pool T), Decidable (Proper a s)
  | .allocpageref va, s => inferInstanceAs (Decidable (va = 0 ∨ va % pageSize = 0 ∧
      ∀ w < numPagerefpages, (s.heap.kheaproots w).page ≠ va))
  | .freepageref p, s => inferInstanceAs (Decidable (p ∈ s.out))

instance decidableBacked : ∀ (a : Act) (s : Pool T), Decidable (Backed a s)
  | .allocpageref va, s => inferInstanceAs (Decidable (WantsPage s → va ≠ 0))
  | .freepageref _, _ => isTrue trivial

/-- Two pagerefs of one page; the first is freed. -/
theorem twoPagerefs_exact : ∃ t : Pool Unit, Runs.run step
    [.allocpageref 0x80010000, .allocpageref 0, .freepageref 0x80010000]
      (boot (fun _ => ⟨none, none, 0, 0, 0⟩) (fun _ => 0)) = .ok t ∧ Exact t ∧ t.out = [0x80010010] := by
  have hout : ∃ t : Pool Unit, Runs.run step [.allocpageref 0x80010000, .allocpageref 0, .freepageref 0x80010000]
      (boot (fun _ => ⟨none, none, 0, 0, 0⟩) (fun _ => 0)) = .ok t ∧ t.out = [0x80010010] := by decide +kernel
  obtain ⟨t, ht, hexact⟩ := (pagerefs_exact_iff (T := Unit) (fun _ => ⟨none, none, 0, 0, 0⟩) (fun _ => 0)
    [.allocpageref 0x80010000, .allocpageref 0, .freepageref 0x80010000] (by decide +kernel)).mp (by decide +kernel) _
    (List.prefix_refl _)
  obtain ⟨u, hu, hlist⟩ := hout
  rw [ht] at hu
  cases hu
  exact ⟨t, ht, hexact, hlist⟩

/-- The first `alloc_kpages` fails, and the root is left with a bit and no page. -/
theorem failure_leaves_bit : ∃ t : Pool Unit, Runs.run step [.allocpageref 0]
    (boot (fun _ => ⟨none, none, 0, 0, 0⟩) (fun _ => 0)) = .ok t ∧ (t.heap.kheaproots 0).page = 0 ∧
      (t.heap.kheaproots 0).numinuse = 1 ∧ bits (t.heap.kheaproots 0) = 1 ∧ t.out = [] ∧ ¬Exact t := by
  obtain ⟨t, ht, hpage, hnum, hbits, hout⟩ : ∃ t : Pool Unit, Runs.run step [.allocpageref 0]
      (boot (fun _ => ⟨none, none, 0, 0, 0⟩) (fun _ => 0)) = .ok t ∧ (t.heap.kheaproots 0).page = 0 ∧
        (t.heap.kheaproots 0).numinuse = 1 ∧ bits (t.heap.kheaproots 0) = 1 ∧ t.out = [] := by decide +kernel
  refine ⟨t, ht, hpage, hnum, hbits, hout, ?_⟩
  intro hexact
  rw [hexact.pageless 0 (by decide) hpage] at hbits
  cases hbits

end OS161.Pagerefs
