import OS161.KmallocLists
import OS161.Placement

/-!
# The pages of the subpage allocator

Between its sections a thread may own a page that is on no list yet, a page of
pagerefs and a pageref that is taken but not filled in. Every page got from
`alloc_kpages` has one owner until it is given back: a pageref, a root or such
a thread. With that, each section keeps the lists and the blocks in order no
matter what other threads did while the lock was dropped.
-/

set_option autoImplicit false

namespace OS161.Kmalloc

open Function Links Placement Runs PhysicalMemory

variable {T : Type*}

inductive Owner (T : Type*) where
  | ref (r : ℕ)
  | root (w : ℕ)
  | page (t : T)
  | extra (t : T)

/-- The page a thread has got for its blocks, or has yet to give back. -/
def Phase.page : Phase → List ℕ
  | .idle => []
  | .pageWanted _ _ => []
  | .pageGot _ _ prpage => if prpage = 0 then [] else [prpage]
  | .refPageWanted _ _ prpage _ _ => [prpage]
  | .refPageGot _ _ prpage _ _ _ => [prpage]
  | .refPageExtra _ _ prpage _ _ _ => [prpage]
  | .refPageBack _ _ prpage _ _ => [prpage]
  | .giving prpage => [prpage]

/-- The page a thread has got for pagerefs. -/
def Phase.extra : Phase → List ℕ
  | .refPageGot _ _ _ _ _ va => if va = 0 then [] else [va]
  | .refPageExtra _ _ _ _ _ va => [va]
  | _ => []

/-- The pageref a thread has taken and not yet filled in. -/
def Phase.slot : Phase → Option (ℕ × ℕ)
  | .refPageWanted _ _ _ w j => some (w, j)
  | .refPageGot _ _ _ w j _ => some (w, j)
  | .refPageExtra _ _ _ w j _ => some (w, j)
  | .refPageBack _ _ _ w j => some (w, j)
  | _ => none

/-- The block type and the size a thread allocates for. -/
def Phase.request : Phase → Option (ℕ × ℕ)
  | .pageWanted k sz => some (k, sz)
  | .pageGot k sz _ => some (k, sz)
  | .refPageWanted k sz _ _ _ => some (k, sz)
  | .refPageGot k sz _ _ _ _ => some (k, sz)
  | .refPageExtra k sz _ _ _ _ => some (k, sz)
  | .refPageBack k sz _ _ _ => some (k, sz)
  | _ => none

/-- The root a thread has seen to have a page. -/
def Phase.rooted : Phase → Option ℕ
  | .refPageExtra _ _ _ w _ _ => some w
  | .refPageBack _ _ _ w _ => some w
  | _ => none

variable {refs : ℕ → Pageref} {roots : ℕ → KheapRoot} {threads : T → Phase} {held all : List ℕ} {t : T}
  {p : Phase} {r w j : ℕ}

def owned (refs : ℕ → Pageref) (roots : ℕ → KheapRoot) (threads : T → Phase) (all : List ℕ) : Owner T → List ℕ
  | .ref r => if r ∈ all then [(refs r).pageaddr] else []
  | .root w => if (roots w).page = 0 then [] else [(roots w).page]
  | .page t => (threads t).page
  | .extra t => (threads t).extra

structure Places (refs : ℕ → Pageref) (roots : ℕ → KheapRoot) (threads : T → Phase) (held all : List ℕ) :
    Prop where
  exact : Exact (owned refs roots threads all) (· ∈ held)
  nodup : held.Nodup
  good : ∀ p ∈ held, p % pageSize = 0 ∧ 0 < p ∧ p + pageSize ≤ 2 ^ 32

structure Slots (roots : ℕ → KheapRoot) (threads : T → Phase) (all : List ℕ) : Prop where
  filled : ∀ r ∈ all, ∃ w < numPagerefpages, ∃ j < npagerefsPerPage, (roots w).page ≠ 0 ∧
    r = (roots w).page + j * sizeofPageref ∧ (roots w).pagerefsInuse j = true
  taken : ∀ t w j, (threads t).slot = some (w, j) → w < numPagerefpages ∧ j < npagerefsPerPage ∧
    (roots w).pagerefsInuse j = true ∧ ((roots w).page ≠ 0 → (roots w).page + j * sizeofPageref ∉ all)
  alone : ∀ t u w j, (threads t).slot = some (w, j) → (threads u).slot = some (w, j) → t = u
  count : ∀ w < numPagerefpages,
    (roots w).numinuse = (List.range npagerefsPerPage).countP (roots w).pagerefsInuse

structure Requests (roots : ℕ → KheapRoot) (threads : T → Phase) : Prop where
  fits : ∀ t k sz, (threads t).request = some (k, sz) → k < nsizes ∧ sz ≤ sizeOf k
  rooted : ∀ t w, (threads t).rooted = some w → (roots w).page ≠ 0

/-- The state of the allocator, spelled out by its lists. -/
structure Rep (s : Heap T) (all : List ℕ) (same free : ℕ → List ℕ) : Prop where
  lists : Lists s.refs s.sizebases s.allbase all same
  blocks : Blocks s.refs s.mem s.live all free
  used : ∀ r ∈ all, (s.refs r).nfree < pageSize / (s.refs r).size
  places : Places s.refs s.kheaproots s.threads s.held all
  slots : Slots s.kheaproots s.threads all
  requests : Requests s.kheaproots s.threads

section Places

theorem Places.root_good (h : Places refs roots threads held all) (hw : (roots w).page ≠ 0) :
    (roots w).page % pageSize = 0 := by
  refine (h.good _ ((h.exact.covers _).mpr ⟨.root w, ?_⟩)).1
  simp [owned, hw]

/-- Pagerefs of different roots, or at different places, are different. -/
theorem Places.slot_inj (h : Places refs roots threads held all) {w' j' : ℕ} (hw : (roots w).page ≠ 0)
    (hw' : (roots w').page ≠ 0) (hj : j < npagerefsPerPage) (hj' : j' < npagerefsPerPage)
    (heq : (roots w).page + j * sizeofPageref = (roots w').page + j' * sizeofPageref) : w = w' ∧ j = j' := by
  have h1 := h.root_good hw
  have h2 := h.root_good hw'
  have hpage : (roots w).page = (roots w').page := by
    unfold pageSize at h1 h2
    unfold npagerefsPerPage at hj hj'
    unfold sizeofPageref at heq
    omega
  have hroot : (Owner.root w : Owner T) = .root w' := by
    refine h.exact.unique _ _ (roots w).page ?_ ?_
    · simp [owned, hw]
    · simp [owned, hw', hpage]
  cases hroot
  refine ⟨rfl, ?_⟩
  unfold sizeofPageref at heq
  omega

theorem Places.apart (h : Places refs roots threads held all) {q : ℕ} (hr : r ∈ all) (hq : q ∈ all)
    (heq : (refs r).pageaddr = (refs q).pageaddr) : r = q := by
  have howner : (Owner.ref r : Owner T) = .ref q := by
    refine h.exact.unique _ _ (refs r).pageaddr ?_ ?_
    · simp [owned, hr]
    · simp [owned, hq, heq]
  cases howner
  rfl

theorem Places.congr {refs' : ℕ → Pageref} (h : Places refs roots threads held all)
    (hpage : ∀ r ∈ all, (refs' r).pageaddr = (refs r).pageaddr) : Places refs' roots threads held all where
  exact := by
    refine h.exact.reorder ?_
    intro z
    cases z with
    | ref r =>
      by_cases hr : r ∈ all
      · simp [owned, hr, hpage r hr]
      · simp [owned, hr]
    | root w => exact .refl _
    | page t => exact .refl _
    | extra t => exact .refl _
  nodup := h.nodup
  good := h.good

variable [DecidableEq T]

theorem owned_setPhase {z : Owner T} (hpage : z = .page t → p.page = (threads t).page)
    (hextra : z = .extra t → p.extra = (threads t).extra) :
    owned refs roots (update threads t p) all z = owned refs roots threads all z := by
  cases z with
  | ref r => rfl
  | root w => rfl
  | page u =>
    by_cases hu : u = t
    · subst hu
      simp [owned, hpage rfl]
    · simp [owned, hu]
  | extra u =>
    by_cases hu : u = t
    · subst hu
      simp [owned, hextra rfl]
    · simp [owned, hu]

/-- A thread goes on with the pages it has. -/
theorem Places.setPhase (h : Places refs roots threads held all) (hpage : p.page = (threads t).page)
    (hextra : p.extra = (threads t).extra) : Places refs roots (update threads t p) held all where
  exact := h.exact.reorder (fun _ => .of_eq (owned_setPhase (fun _ => hpage) (fun _ => hextra)))
  nodup := h.nodup
  good := h.good

omit [DecidableEq T] in
/-- A page comes from `alloc_kpages`. -/
theorem Places.insert {threads' : T → Phase} (h : Places refs roots threads held all) {va : ℕ} {x : Owner T}
    (hnew : va ∉ held) (hgood : va % pageSize = 0 ∧ 0 < va ∧ va + pageSize ≤ 2 ^ 32)
    (hx : owned refs roots threads' all x = va::owned refs roots threads all x)
    (hrest : ∀ z, z ≠ x → owned refs roots threads' all z = owned refs roots threads all z) :
    Places refs roots threads' (va::held) all where
  exact := h.exact.insert x va hnew hrest (.of_eq hx) (fun u => by rw [List.mem_cons, or_comm])
  nodup := List.nodup_cons.mpr ⟨hnew, h.nodup⟩
  good q hq := by
    obtain rfl | hq := List.mem_cons.mp hq
    · exact hgood
    · exact h.good q hq

omit [DecidableEq T] in
/-- A page goes back to `free_kpages`. -/
theorem Places.erase {threads' : T → Phase} (h : Places refs roots threads held all) {va : ℕ} {x : Owner T}
    (hx : owned refs roots threads all x = va::owned refs roots threads' all x)
    (hrest : ∀ z, z ≠ x → owned refs roots threads' all z = owned refs roots threads all z) :
    Places refs roots threads' (held.erase va) all where
  exact := h.exact.erase x va hrest (.of_eq hx) (fun u => by rw [h.nodup.mem_erase_iff, and_comm])
  nodup := h.nodup.erase _
  good q hq := h.good q (List.mem_of_mem_erase hq)

theorem Places.getPage (h : Places refs roots threads held all) {va : ℕ} (hnew : va ∉ held)
    (hgood : va % pageSize = 0 ∧ 0 < va ∧ va + pageSize ≤ 2 ^ 32)
    (hpage : p.page = va::(threads t).page) (hextra : p.extra = (threads t).extra) :
    Places refs roots (update threads t p) (va::held) all := by
  refine h.insert (x := .page t) hnew hgood (by simp [owned, hpage]) ?_
  intro z hz
  exact owned_setPhase (fun heq => absurd heq hz) (fun _ => hextra)

theorem Places.getExtra (h : Places refs roots threads held all) {va : ℕ} (hnew : va ∉ held)
    (hgood : va % pageSize = 0 ∧ 0 < va ∧ va + pageSize ≤ 2 ^ 32)
    (hpage : p.page = (threads t).page) (hextra : p.extra = va::(threads t).extra) :
    Places refs roots (update threads t p) (va::held) all := by
  refine h.insert (x := .extra t) hnew hgood (by simp [owned, hextra]) ?_
  intro z hz
  exact owned_setPhase (fun _ => hpage) (fun heq => absurd heq hz)

theorem Places.givePage (h : Places refs roots threads held all) {va : ℕ}
    (hpage : (threads t).page = va::p.page) (hextra : p.extra = (threads t).extra) :
    Places refs roots (update threads t p) (held.erase va) all := by
  refine h.erase (x := .page t) (by simp [owned, hpage]) ?_
  intro z hz
  exact owned_setPhase (fun heq => absurd heq hz) (fun _ => hextra)

theorem Places.giveExtra (h : Places refs roots threads held all) {va : ℕ}
    (hpage : p.page = (threads t).page) (hextra : (threads t).extra = va::p.extra) :
    Places refs roots (update threads t p) (held.erase va) all := by
  refine h.erase (x := .extra t) (by simp [owned, hextra]) ?_
  intro z hz
  exact owned_setPhase (fun _ => hpage) (fun heq => absurd heq hz)

/-- A thread's page becomes that of a pageref. -/
theorem Places.enter (h : Places refs roots threads held all) {pr : Pageref} {q : Phase}
    (hr : r ∉ all) (hpage : (threads t).page = [pr.pageaddr]) (hq : q.page = [])
    (hextra : q.extra = (threads t).extra) :
    Places (update refs r pr) roots (update threads t q) held (r::all) where
  exact := by
    refine h.exact.exchange (.page t) (.ref r) (by simp) ?_ ?_
    · intro z hz hz'
      rw [owned_setPhase (fun heq => absurd heq hz) (fun _ => hextra)]
      cases z with
      | ref x =>
        have hx : x ≠ r := fun hx => hz' (hx ▸ rfl)
        simp [owned, hx]
      | root w => rfl
      | page u => rfl
      | extra u => rfl
    · simp [owned, hr, hpage, hq]
  nodup := h.nodup
  good := h.good

/-- The page of a pageref becomes a thread's to give back. -/
theorem Places.leave (h : Places refs roots threads held all) {q : Phase} (hnd : all.Nodup) (hr : r ∈ all)
    (hpage : (threads t).page = []) (hq : q.page = [(refs r).pageaddr]) (hextra : q.extra = (threads t).extra) :
    Places refs roots (update threads t q) held (all.erase r) where
  exact := by
    refine h.exact.exchange (.page t) (.ref r) (by simp) ?_ ?_
    · intro z hz hz'
      rw [owned_setPhase (fun heq => absurd heq hz) (fun _ => hextra)]
      cases z with
      | ref x =>
        have hx : x ≠ r := fun hx => hz' (hx ▸ rfl)
        simp [owned, List.mem_erase_of_ne hx]
      | root w => rfl
      | page u => rfl
      | extra u => rfl
    · simp [owned, hr, hpage, hq, hnd.mem_erase_iff]
  nodup := h.nodup
  good := h.good

/-- A thread's page becomes that of a root. -/
theorem Places.plant (h : Places refs roots threads held all) {root : KheapRoot} {q : Phase}
    (hw : (roots w).page = 0) (hroot : root.page ≠ 0) (hextra : (threads t).extra = [root.page])
    (hq : q.extra = []) (hpage : q.page = (threads t).page) :
    Places refs (update roots w root) (update threads t q) held all where
  exact := by
    refine h.exact.exchange (.extra t) (.root w) (by simp) ?_ ?_
    · intro z hz hz'
      rw [owned_setPhase (fun _ => hpage) (fun heq => absurd heq hz)]
      cases z with
      | ref x => rfl
      | root x =>
        have hx : x ≠ w := fun hx => hz' (hx ▸ rfl)
        simp [owned, hx]
      | page u => rfl
      | extra u => rfl
    · simp [owned, hw, hroot, hextra, hq]
  nodup := h.nodup
  good := h.good

omit [DecidableEq T] in
/-- Only which pagerefs are in use differs. -/
theorem Places.setRoot (h : Places refs roots threads held all) {root : KheapRoot}
    (hw : root.page = (roots w).page) : Places refs (update roots w root) threads held all where
  exact := by
    refine h.exact.reorder ?_
    intro z
    cases z with
    | ref x => exact .refl _
    | root x =>
      by_cases hx : x = w
      · subst hx
        simp [owned, hw]
      · simp [owned, hx]
    | page u => exact .refl _
    | extra u => exact .refl _
  nodup := h.nodup
  good := h.good

end Places

section Slots

variable [DecidableEq T]

theorem Slots.setPhase (h : Slots roots threads all) (hslot : ∀ x, p.slot = some x → (threads t).slot = some x) :
    Slots roots (update threads t p) all := by
  have hold : ∀ u x, (update threads t p u).slot = some x → (threads u).slot = some x := by
    intro u x hu
    by_cases hut : u = t
    · subst hut
      rw [update_self] at hu
      exact hslot x hu
    · rwa [update_of_ne hut] at hu
  exact ⟨h.filled, fun u w j hu => h.taken u w j (hold u _ hu),
    fun u v w j hu hv => h.alone u v w j (hold u _ hu) (hold v _ hv), h.count⟩

theorem countP_update_true {f : ℕ → Bool} {n : ℕ} (hj : j < n) (hf : f j = false) :
    (List.range n).countP (update f j true) = (List.range n).countP f + 1 := by
  induction n with
  | zero => omega
  | succ n ih =>
    rw [List.range_succ, List.countP_append, List.countP_append]
    by_cases hjn : j = n
    · subst hjn
      have hsame : (List.range j).countP (update f j true) = (List.range j).countP f := by
        refine List.countP_congr ?_
        intro x hx
        rw [update_of_ne (by simp only [List.mem_range] at hx; omega)]
      simp [hsame, hf]
    · have hnj : update f j true n = f n := update_of_ne (by omega) _ _
      rw [ih (by omega), List.countP_singleton, List.countP_singleton, hnj]
      omega

theorem countP_update_false {f : ℕ → Bool} {n : ℕ} (hj : j < n) (hf : f j = true) :
    (List.range n).countP (update f j false) + 1 = (List.range n).countP f := by
  have hback : update (update f j false) j true = f := by
    rw [update_idem, ← hf, update_eq_self]
  rw [← countP_update_true (f := update f j false) hj (update_self ..), hback]

/-- A pageref not in use is taken by a thread. -/
theorem Slots.take (h : Slots roots threads all) {places : List ℕ} (hpl : Places refs roots threads places all)
    {root : KheapRoot} (hw : w < numPagerefpages) (hj : j < npagerefsPerPage)
    (hunused : (roots w).pagerefsInuse j = false) (hslot : p.slot = some (w, j))
    (hpage : root.page = (roots w).page) (hinuse : root.pagerefsInuse = update (roots w).pagerefsInuse j true)
    (hnum : root.numinuse = (roots w).numinuse + 1) :
    Slots (update roots w root) (update threads t p) all := by
  have hpages : ∀ x, (update roots w root x).page = (roots x).page := by
    intro x
    by_cases hx : x = w
    · rw [hx, update_self, hpage]
    · rw [update_of_ne hx]
  have hused : ∀ x i, (roots x).pagerefsInuse i = true → (update roots w root x).pagerefsInuse i = true := by
    intro x i hx
    by_cases hxw : x = w
    · subst hxw
      rw [update_self, hinuse]
      by_cases hij : i = j
      · rw [hij, update_self]
      · rwa [update_of_ne hij]
    · rwa [update_of_ne hxw]
  have hfresh : ∀ u, (threads u).slot ≠ some (w, j) := by
    intro u hu
    have := (h.taken u w j hu).2.2.1
    rw [hunused] at this
    cases this
  constructor
  · intro r hr
    obtain ⟨x, hx, i, hi, hpx, hrx, hu⟩ := h.filled r hr
    exact ⟨x, hx, i, hi, by rwa [hpages], by rwa [hpages], hused x i hu⟩
  · intro u x i hu
    by_cases hut : u = t
    · subst hut
      rw [update_self, hslot] at hu
      cases hu
      refine ⟨hw, hj, by rw [update_self, hinuse, update_self], ?_⟩
      rw [hpages]
      intro hpw hin
      obtain ⟨x, hx, i, hi, hpx, hrx, hu⟩ := h.filled _ hin
      obtain ⟨rfl, rfl⟩ := hpl.slot_inj hpw hpx hj hi hrx
      rw [hunused] at hu
      cases hu
    · rw [update_of_ne hut] at hu
      obtain ⟨hx, hi, hin, hout⟩ := h.taken u x i hu
      exact ⟨hx, hi, hused x i hin, by rwa [hpages]⟩
  · intro u v x i hu hv
    by_cases hut : u = t <;> by_cases hvt : v = t
    · rw [hut, hvt]
    · subst hut
      rw [update_self, hslot] at hu
      cases hu
      rw [update_of_ne hvt] at hv
      exact absurd hv (hfresh v)
    · subst hvt
      rw [update_self, hslot] at hv
      cases hv
      rw [update_of_ne hut] at hu
      exact absurd hu (hfresh u)
    · rw [update_of_ne hut] at hu
      rw [update_of_ne hvt] at hv
      exact h.alone u v x i hu hv
  · intro x hx
    by_cases hxw : x = w
    · subst hxw
      rw [update_self, hnum, hinuse, countP_update_true hj hunused, h.count x hx]
    · rw [update_of_ne hxw]
      exact h.count x hx

/-- The pageref a thread has taken is filled in. -/
theorem Slots.fill (h : Slots roots threads all) (hpl : Places refs roots threads held all)
    (hslot : (threads t).slot = some (w, j)) (hpage : (roots w).page ≠ 0) (hp : p.slot = none) :
    Slots roots (update threads t p) (((roots w).page + j * sizeofPageref)::all) := by
  obtain ⟨hw, hj, hin, hout⟩ := h.taken t w j hslot
  have hold : ∀ u x, (update threads t p u).slot = some x → u ≠ t ∧ (threads u).slot = some x := by
    intro u x hu
    by_cases hut : u = t
    · subst hut
      rw [update_self, hp] at hu
      cases hu
    · rw [update_of_ne hut] at hu
      exact ⟨hut, hu⟩
  constructor
  · intro r hr
    obtain rfl | hr := List.mem_cons.mp hr
    · exact ⟨w, hw, j, hj, hpage, rfl, hin⟩
    · exact h.filled r hr
  · intro u x i hu
    obtain ⟨hut, hu⟩ := hold u _ hu
    obtain ⟨hx, hi, hin', hout'⟩ := h.taken u x i hu
    refine ⟨hx, hi, hin', ?_⟩
    intro hpx hmem
    obtain heq | hmem := List.mem_cons.mp hmem
    · obtain ⟨rfl, rfl⟩ := hpl.slot_inj hpx hpage hi hj heq
      exact hut (h.alone u t x i hu hslot)
    · exact hout' hpx hmem
  · intro u v x i hu hv
    exact h.alone u v x i (hold u _ hu).2 (hold v _ hv).2
  · exact h.count

omit [DecidableEq T] in
/-- A root gets its page. -/
theorem Slots.plant (h : Slots roots threads all) {root : KheapRoot}
    (hpl : Places refs (update roots w root) threads held all) (hw : (roots w).page = 0)
    (hinuse : root.pagerefsInuse = (roots w).pagerefsInuse) (hnum : root.numinuse = (roots w).numinuse) :
    Slots (update roots w root) threads all := by
  have hne : ∀ x, (roots x).page ≠ 0 → x ≠ w := by
    rintro x hx rfl
    exact hx hw
  have hused : ∀ x, (update roots w root x).pagerefsInuse = (roots x).pagerefsInuse := by
    intro x
    by_cases hx : x = w
    · rw [hx, update_self, hinuse]
    · rw [update_of_ne hx]
  constructor
  · intro r hr
    obtain ⟨x, hx, i, hi, hpx, hrx, hu⟩ := h.filled r hr
    refine ⟨x, hx, i, hi, ?_⟩
    rw [update_of_ne (hne x hpx)]
    exact ⟨hpx, hrx, hu⟩
  · intro u x i hu
    obtain ⟨hx, hi, hin, hout⟩ := h.taken u x i hu
    refine ⟨hx, hi, by rwa [hused], ?_⟩
    intro hpx hmem
    -- pagerefs in use are on the pages of other roots
    obtain ⟨y, hy, k, hk, hpy, hry, -⟩ := h.filled _ hmem
    have hyw := hne y hpy
    have hpy' : (update roots w root y).page = (roots y).page := by rw [update_of_ne hyw]
    obtain ⟨rfl, rfl⟩ := hpl.slot_inj hpx (by rwa [hpy']) hi hk (by rw [hpy', hry])
    rw [update_of_ne hyw] at hmem
    exact hout hpy hmem
  · exact h.alone
  · intro x hx
    by_cases hxw : x = w
    · subst hxw
      rw [update_self, hnum, hinuse, h.count x hx]
    · rw [update_of_ne hxw]
      exact h.count x hx

omit [DecidableEq T] in
/-- A pageref is no longer in use. -/
theorem Slots.release (h : Slots roots threads all) {root : KheapRoot}
    (hnd : all.Nodup) (hw : w < numPagerefpages) (hj : j < npagerefsPerPage)
    (hpw : (roots w).page ≠ 0) (hr : (roots w).page + j * sizeofPageref ∈ all)
    (hin : (roots w).pagerefsInuse j = true) (hpage : root.page = (roots w).page)
    (hinuse : root.pagerefsInuse = update (roots w).pagerefsInuse j false)
    (hnum : root.numinuse = (roots w).numinuse - 1) :
    Slots (update roots w root) threads (all.erase ((roots w).page + j * sizeofPageref)) := by
  have hpages : ∀ x, (update roots w root x).page = (roots x).page := by
    intro x
    by_cases hx : x = w
    · rw [hx, update_self, hpage]
    · rw [update_of_ne hx]
  have hused : ∀ x i, ¬(x = w ∧ i = j) → (update roots w root x).pagerefsInuse i = (roots x).pagerefsInuse i := by
    intro x i hxi
    by_cases hxw : x = w
    · subst hxw
      rw [update_self, hinuse, update_of_ne (fun hij => hxi ⟨rfl, hij⟩)]
    · rw [update_of_ne hxw]
  constructor
  · intro r hr
    obtain ⟨hne, hr⟩ := hnd.mem_erase_iff.mp hr
    obtain ⟨x, hx, i, hi, hpx, rfl, hu⟩ := h.filled r hr
    refine ⟨x, hx, i, hi, by rwa [hpages], by rw [hpages], ?_⟩
    rw [hused x i]
    · exact hu
    · rintro ⟨rfl, rfl⟩
      exact hne rfl
  · intro u x i hu
    obtain ⟨hx, hi, hin', hout⟩ := h.taken u x i hu
    refine ⟨hx, hi, ?_, ?_⟩
    · rw [hused x i]
      · exact hin'
      · rintro ⟨rfl, rfl⟩
        exact hout hpw hr
    · rw [hpages]
      exact fun hpx hmem => hout hpx (List.mem_of_mem_erase hmem)
  · exact h.alone
  · intro x hx
    by_cases hxw : x = w
    · subst hxw
      have := countP_update_false (n := npagerefsPerPage) hj hin
      rw [update_self, hnum, hinuse, h.count x hx]
      omega
    · rw [update_of_ne hxw]
      exact h.count x hx

end Slots

theorem Requests.setPhase [DecidableEq T] (h : Requests roots threads)
    (hrequest : ∀ k sz, p.request = some (k, sz) → k < nsizes ∧ sz ≤ sizeOf k)
    (hrooted : ∀ w, p.rooted = some w → (roots w).page ≠ 0) : Requests roots (update threads t p) := by
  constructor
  · intro u k sz hu
    by_cases hut : u = t
    · subst hut
      exact hrequest k sz (by simpa using hu)
    · exact h.fits u k sz (by simpa [hut] using hu)
  · intro u w hu
    by_cases hut : u = t
    · subst hut
      exact hrooted w (by simpa using hu)
    · exact h.rooted u w (by simpa [hut] using hu)

/-- A page once given to a root stays. -/
theorem Requests.setRoots {roots' : ℕ → KheapRoot} (h : Requests roots threads)
    (hpage : ∀ w, (roots w).page ≠ 0 → (roots' w).page ≠ 0) : Requests roots' threads where
  fits := h.fits
  rooted u w hu := hpage w (h.rooted u w hu)

end OS161.Kmalloc
