import OS161.KmallocPages
import Mathlib.Data.List.ProdSigma

/-!
# The sections of the subpage allocator

Each section keeps the lists, the blocks and the ownership of pages in order,
whatever other threads did while the lock was dropped. None of the assertions
can fail but one: `freepageref` does not expect a root with pagerefs in use
and no page, which is what is left where pages for pagerefs were not to be had.
-/

set_option autoImplicit false

namespace OS161.Kmalloc

open Function Links Placement Runs PhysicalMemory

variable {T : Type*} [DecidableEq T] {s : Heap T} {t : T} {p : Phase} {all : List ℕ} {same free : ℕ → List ℕ}
  {r k sz prpage w j : ℕ}

/-- The ways in which a step may end other than in a state. -/
def Halts (e : Stop) : Prop := e = .notReady ∨ e = .pagelessRoot

def Inv (s : Heap T) : Prop := ∃ all same free, Rep s all same free

theorem setPhase_setPhase {q : Phase} : (s.setPhase t p).setPhase t q = s.setPhase t q := by
  simp [Heap.setPhase]

/-- A thread goes on, or gives up what it had taken, without a change to anything shared. -/
theorem Rep.setPhase (h : Rep s all same free) (hpage : p.page = (s.threads t).page)
    (hextra : p.extra = (s.threads t).extra) (hslot : ∀ x, p.slot = some x → (s.threads t).slot = some x)
    (hrequest : ∀ k sz, p.request = some (k, sz) → k < nsizes ∧ sz ≤ sizeOf k)
    (hrooted : ∀ w, p.rooted = some w → (s.kheaproots w).page ≠ 0) : Rep (s.setPhase t p) all same free where
  lists := h.lists
  blocks := h.blocks
  used := h.used
  places := h.places.setPhase hpage hextra
  slots := h.slots.setPhase hslot
  requests := h.requests.setPhase hrequest hrooted

omit [DecidableEq T] in
/-- There are no more pagerefs than fit on the pages of all roots. -/
theorem Rep.length_le (h : Rep s all same free) : all.length ≤ totalPagerefs := by
  let slots := List.range numPagerefpages ×ˢ List.range npagerefsPerPage
  have hsub : all ⊆ slots.map (fun x => s.refAddr x.1 x.2) := by
    intro r hr
    obtain ⟨w, hw, j, hj, -, rfl, -⟩ := h.slots.filled r hr
    exact List.mem_map.mpr ⟨(w, j), List.pair_mem_product.mpr ⟨List.mem_range.mpr hw, List.mem_range.mpr hj⟩, rfl⟩
  have hle := (List.subperm_of_subset h.lists.allPath.nodup hsub).length_le
  rw [List.length_map, List.length_product, List.length_range, List.length_range] at hle
  exact hle.trans (by decide)

/-- The allocation from a page that has a free block. -/
theorem doalloc_eq {live f : List ℕ} {a : ℕ} (h : Page s.mem live (s.refs r) (a::f)) :
    s.doalloc t r sz =
      .ok { (s.setRef r ((s.refs r).popped f)).setPhase t .idle with live := (a, sz)::s.live } := by
  obtain ⟨hoff, rfl⟩ := h.head_offset
  have hlen := h.length
  have hnext : Path (fun a => pointer (s.mem a)) (pointer (s.mem ((s.refs r).pageaddr + (s.refs r).freelistOffset))) f :=
    h.path.2
  simp only [List.length_cons] at hlen
  simp only [Heap.doalloc, if_pos hoff]
  cases f with
  | nil =>
    rw [path_nil] at hnext
    have hz : (s.refs r).nfree - 1 = 0 := by
      simp only [List.length_nil] at hlen
      omega
    simp only [hnext, if_pos hz]
    simp [Pageref.popped, hz]
  | cons b f =>
    have hb := h.block b (by simp)
    have hlo := (IsBlock.bounds h.typed hb).1
    have hlt := (isBlock_ne_invalid h.typed hb).1
    have haddr := h.addr.2
    have hsub : sub32 b (s.refs r).pageaddr = b - (s.refs r).pageaddr := by
      refine sub32_of_le hlo ?_
      omega
    have hpos : 0 < (s.refs r).nfree - 1 := by
      simp only [List.length_cons] at hlen
      omega
    simp only [hnext.1, hsub, if_pos (And.intro hpos hlt)]
    rfl

/-- What stays when one pageref changes other than by its page and its links. -/
theorem Rep.doalloc (hl : Lists s.refs s.sizebases s.allbase all same) (hb : Blocks s.refs s.mem s.live all free)
    (hu : ∀ q ∈ all, q ≠ r → (s.refs q).nfree < pageSize / (s.refs q).size) (hr : r ∈ all)
    (hpos : 0 < (s.refs r).nfree) (hsz : sz ≤ (s.refs r).size)
    (hpl : Places s.refs s.kheaproots (s.setPhase t .idle).threads s.held all)
    (hsl : Slots s.kheaproots (s.setPhase t .idle).threads all)
    (hrq : Requests s.kheaproots (s.setPhase t .idle).threads) :
    ∃ a f, free r = a::f ∧ s.doalloc t r sz =
        .ok { (s.setRef r ((s.refs r).popped f)).setPhase t .idle with live := (a, sz)::s.live } ∧
      Rep { (s.setRef r ((s.refs r).popped f)).setPhase t .idle with live := (a, sz)::s.live } all same
        (update free r f) := by
  have hpage := hb.page r hr
  obtain ⟨a, f, hf⟩ : ∃ a f, free r = a::f := by
    cases hf : free r with
    | nil =>
      have := hpage.length
      rw [hf, List.length_nil] at this
      omega
    | cons a f => exact ⟨a, f, rfl⟩
  rw [hf] at hpage
  have hpab : ∀ q, (update s.refs r ((s.refs r).popped f) q).pageaddrAndBlocktype =
      (s.refs q).pageaddrAndBlocktype := update_pab rfl
  have hle := hpage.nfree_le
  refine ⟨a, f, hf, doalloc_eq hpage, ?_, hb.pop hr hf hsz, ?_, ?_, hsl, hrq⟩
  · refine hl.congr ?_ ?_ (fun q _ => hpab q)
    · intro q _
      by_cases hq : q = r
      · subst hq
        simp [Heap.setRef, Heap.setPhase, Pageref.popped]
      · simp [Heap.setRef, Heap.setPhase, hq]
    · intro q _
      by_cases hq : q = r
      · subst hq
        simp [Heap.setRef, Heap.setPhase, Pageref.popped]
      · simp [Heap.setRef, Heap.setPhase, hq]
  · intro q hq
    by_cases hqr : q = r
    · subst hqr
      have hsize : ((s.refs q).popped f).size = (s.refs q).size := rfl
      simp only [Heap.setRef, Heap.setPhase, update_self, hsize]
      simp only [Pageref.popped]
      omega
    · simp only [Heap.setRef, Heap.setPhase, update_of_ne hqr]
      exact hu q hq hqr
  · refine hpl.congr ?_
    intro q _
    rw [Pageref.pageaddr, Pageref.pageaddr]
    exact congrArg (fun x => x / pageSize * pageSize) (hpab q)

theorem mkpab_pageaddr {pr : Pageref} (hk : k < nsizes) (hp : prpage % pageSize = 0)
    (hpab : pr.pageaddrAndBlocktype = mkpab prpage k) : pr.pageaddr = prpage ∧ pr.blocktype = k := by
  unfold Pageref.pageaddr Pageref.blocktype
  rw [hpab]
  unfold mkpab nsizes pageSize at *
  omega

theorem newPage_rep (h : Rep s all same free) (hpage : (s.threads t).page = [prpage])
    (hextra : (s.threads t).extra = []) (hslot : (s.threads t).slot = some (w, j))
    (hk : k < nsizes) (hsz : sz ≤ sizeOf k) (hw : (s.kheaproots w).page ≠ 0) :
    ∃ s' free', s.newPage t k sz prpage (s.refAddr w j) = .ok s' ∧
      Rep s' (s.refAddr w j::all) (update same k (s.refAddr w j::same k)) free' ∧
      s'.held = s.held ∧ ∀ q ∈ all, s'.refs q = s.refs q := by
  have hheld : prpage ∈ s.held := (h.places.exact.covers _).mpr ⟨.page t, by simp [owned, hpage]⟩
  obtain ⟨hmod, hpos, hend⟩ := h.places.good prpage hheld
  have hr : s.refAddr w j ∉ all := (h.slots.taken t w j hslot).2.2.2 hw
  unfold Heap.newPage
  set r := s.refAddr w j with hrdef
  set pr : Pageref := {
    nextSamesize := s.sizebases k
    nextAll := s.allbase
    pageaddrAndBlocktype := mkpab prpage k
    freelistOffset := (pageSize / sizeOf k - 1) * sizeOf k
    nfree := pageSize / sizeOf k } with hprdef
  obtain ⟨haddr, htype⟩ : pr.pageaddr = prpage ∧ pr.blocktype = k := mkpab_pageaddr hk hmod rfl
  have hsize : pr.size = sizeOf k := by rw [Pageref.size, htype]
  have hapart : ∀ q ∈ all, (s.refs q).pageaddr ≠ pr.pageaddr := by
    intro q hq heq
    have howner : (Owner.page t : Owner T) = .ref q := by
      refine h.places.exact.unique _ _ prpage ?_ ?_
      · simp [owned, hpage]
      · simp [owned, hq, heq, haddr]
    cases howner
  have hlists := h.lists.push hr hk htype rfl rfl
  have hblocks := h.blocks.add hr (htype ▸ hk) (haddr ▸ hpos) (haddr ▸ hend) (by rw [hsize]) (by rw [hsize]) hapart
  rw [hsize, haddr] at hblocks
  set s1 : Heap T := { s with
    refs := update s.refs r pr
    mem := linkBlocks s.mem prpage (sizeOf k) (pageSize / sizeOf k)
    sizebases := update s.sizebases k (some r)
    allbase := some r } with hs1
  have hrpr : s1.refs r = pr := update_self ..
  have hother : ∀ q ∈ all, s1.refs q = s.refs q := by
    intro q hq
    refine update_of_ne ?_ _ _
    rintro rfl
    exact hr hq
  have hmany := (sizeOf_facts hk).2.2.1
  obtain ⟨a, f, -, heq, hrep⟩ := Rep.doalloc (s := s1) (t := t) (r := r) hlists hblocks
    (by
      intro q hq hqr
      have hqa := (List.mem_cons.mp hq).resolve_left hqr
      rw [hother q hqa]
      exact h.used q hqa)
    List.mem_cons_self (by rw [hrpr]; exact Nat.lt_of_lt_of_le Nat.two_pos hmany)
    (show sz ≤ _ by rw [hrpr, hsize]; exact hsz)
    (h.places.enter hr (by rw [hpage, haddr]) rfl hextra.symm)
    (h.slots.fill h.places hslot hw rfl)
    (h.requests.setPhase (by simp [Phase.request]) (by simp [Phase.rooted]))
  refine ⟨_, _, heq, hrep, rfl, ?_⟩
  intro q hq
  have hqr : q ≠ r := by
    rintro rfl
    exact hr hq
  simp only [Heap.setRef, Heap.setPhase, update_of_ne hqr]
  exact hother q hq

/-- The pagerefs that are on the lists stay there, with their pages, and no page is got. -/
def Keeps (s : Heap T) (all : List ℕ) (s' : Heap T) : Prop :=
  (∀ q ∈ s'.held, q ∈ s.held) ∧ ∃ all' same' free', Rep s' all' same' free' ∧
    ∀ r ∈ all, r ∈ all' ∧ (s'.refs r).pageaddr = (s.refs r).pageaddr

omit [DecidableEq T] in
theorem Rep.keeps {s' : Heap T} (h : Rep s' all same free) (hrefs : s'.refs = s.refs)
    (hheld : ∀ q ∈ s'.held, q ∈ s.held) : Keeps s all s' :=
  ⟨hheld, all, same, free, h, fun r hr => ⟨hr, by rw [hrefs]⟩⟩

theorem havePageref_keeps (h : Rep s all same free) (hpage : (s.threads t).page = [prpage])
    (hextra : (s.threads t).extra = []) (hslot : (s.threads t).slot = some (w, j))
    (hk : k < nsizes) (hsz : sz ≤ sizeOf k) :
    ∃ s', s.havePageref t k sz prpage w j = .ok s' ∧ Keeps s all s' := by
  unfold Heap.havePageref
  by_cases hw : (s.kheaproots w).page = 0
  · rw [if_pos hw]
    refine ⟨_, rfl, Rep.keeps (h.setPhase ?_ ?_ ?_ ?_ ?_) rfl (fun _ hq => hq)⟩
    · exact hpage.symm
    · exact hextra.symm
    · simp [Phase.slot]
    · simp [Phase.request]
    · simp [Phase.rooted]
  · rw [if_neg hw]
    obtain ⟨s', free', heq, hrep, hheld, hkept⟩ := newPage_rep h hpage hextra hslot hk hsz hw
    exact ⟨s', heq, fun q hq => hheld ▸ hq, _, _, _, hrep, fun r hr => ⟨List.mem_cons_of_mem _ hr, by rw [hkept r hr]⟩⟩

/-- What follows on `allocpageref` does not depend on where the thread was. -/
theorem havePageref_setPhase : (s.setPhase t p).havePageref t k sz prpage w j = s.havePageref t k sz prpage w j := by
  simp [Heap.havePageref, Heap.newPage, Heap.doalloc, Heap.setPhase, Heap.setRef, Heap.refAddr]

omit [DecidableEq T] in
theorem unusedPageref_spec (h : s.unusedPageref = some (w, j)) :
    w < numPagerefpages ∧ j < npagerefsPerPage ∧ (s.kheaproots w).pagerefsInuse j = false := by
  obtain ⟨x, hx, hfound⟩ := List.exists_of_findSome?_eq_some h
  split at hfound
  · cases hfound
  · obtain ⟨i, hi, heq⟩ := Option.map_eq_some_iff.mp hfound
    cases heq
    obtain ⟨y, hy, hbit⟩ := List.exists_of_findSome?_eq_some hi
    obtain ⟨b, hb, rfl⟩ := Option.map_eq_some_iff.mp hbit
    have hclear := List.find?_some hb
    have hmem := List.mem_of_find?_eq_some hb
    rw [List.mem_range] at hx hy hmem
    refine ⟨hx, ?_, by simpa using hclear⟩
    unfold inuseWords at hy
    unfold npagerefsPerPage
    omega

theorem allocpageref_keeps (h : Rep s all same free) (ht : s.threads t = .pageGot k sz prpage) (hp : prpage ≠ 0) :
    ∃ s', s.allocpageref t k sz prpage = .ok s' ∧ Keeps s all s' := by
  obtain ⟨hk, hsz⟩ := h.requests.fits t k sz (by rw [ht]; rfl)
  have hpage : (s.threads t).page = [prpage] := by simp [ht, Phase.page, hp]
  have hextra : (s.threads t).extra = [] := by simp [ht, Phase.extra]
  unfold Heap.allocpageref
  cases hun : s.unusedPageref with
  | none =>
    refine ⟨_, rfl, Rep.keeps (h.setPhase ?_ ?_ ?_ ?_ ?_) rfl (fun _ hq => hq)⟩
    · exact hpage.symm
    · exact hextra.symm
    · simp [Phase.slot]
    · simp [Phase.request]
    · simp [Phase.rooted]
  | some x =>
    obtain ⟨w, j⟩ := x
    obtain ⟨hw, hj, hunused⟩ := unusedPageref_spec hun
    have hrep : Rep ((s.takePageref w j).setPhase t (.refPageWanted k sz prpage w j)) all same free := by
      refine ⟨h.lists, h.blocks, h.used, ?_, ?_, ?_⟩
      · refine (h.places.setRoot ?_).setPhase ?_ ?_
        · rfl
        · rw [hpage, Phase.page]
        · rw [hextra]
          rfl
      · exact h.slots.take h.places hw hj hunused rfl rfl rfl rfl
      · refine (h.requests.setRoots ?_).setPhase ?_ ?_
        · intro x hx
          simpa using hx
        · rintro k' sz' ⟨⟩
          exact ⟨hk, hsz⟩
        · simp [Phase.rooted]
    by_cases hroot : (s.kheaproots w).page = 0
    · simp only [if_pos hroot]
      exact ⟨_, rfl, hrep.keeps rfl (fun _ hq => hq)⟩
    · simp only [if_neg hroot]
      rw [← havePageref_setPhase (p := .refPageWanted k sz prpage w j)]
      refine havePageref_keeps hrep ?_ ?_ ?_ hk hsz
      · simp [Heap.setPhase, Phase.page]
      · simp [Heap.setPhase, Phase.extra]
      · simp [Heap.setPhase, Phase.slot]

theorem pagerefpageGot_keeps {va : ℕ} (h : Rep s all same free)
    (ht : s.threads t = .refPageGot k sz prpage w j va) :
    ∃ s', s.pagerefpageGot t k sz prpage w j va = .ok s' ∧ Keeps s all s' := by
  obtain ⟨hk, hsz⟩ := h.requests.fits t k sz (by rw [ht]; rfl)
  unfold Heap.pagerefpageGot
  by_cases hva : va = 0
  · rw [if_pos hva]
    refine havePageref_keeps h ?_ ?_ ?_ hk hsz
    · simp [ht, Phase.page]
    · simp [ht, Phase.extra, hva]
    · simp [ht, Phase.slot]
  · have hheld : va ∈ s.held := (h.places.exact.covers _).mpr ⟨.extra t, by simp [owned, ht, Phase.extra, hva]⟩
    rw [if_neg hva, if_pos (h.places.good va hheld).1]
    by_cases hroot : (s.kheaproots w).page = 0
    · rw [if_neg (by simpa using hroot)]
      rw [← havePageref_setPhase (p := .refPageBack k sz prpage w j)]
      set root : KheapRoot := { s.kheaproots w with page := va } with hrootdef
      have hplant : Places s.refs (update s.kheaproots w root)
          (update s.threads t (.refPageBack k sz prpage w j)) s.held all := by
        refine h.places.plant hroot hva ?_ rfl ?_
        · simp [ht, Phase.extra, hva, hrootdef]
        · simp [ht, Phase.page]
      have hrep : Rep ((s.setRoot w root).setPhase t (.refPageBack k sz prpage w j)) all same free := by
        refine ⟨h.lists, h.blocks, h.used, hplant, ?_, ?_⟩
        · have hslots := h.slots.setPhase (t := t) (p := .refPageBack k sz prpage w j) (by simp [ht, Phase.slot])
          exact hslots.plant hplant hroot rfl rfl
        · refine (h.requests.setRoots ?_).setPhase ?_ ?_
          · intro x hx
            by_cases hxw : x = w
            · subst hxw
              exact absurd hroot hx
            · simpa [hxw] using hx
          · rintro k' sz' ⟨⟩
            exact ⟨hk, hsz⟩
          · rintro x ⟨⟩
            simpa using hva
      refine havePageref_keeps hrep ?_ ?_ ?_ hk hsz
      · simp [Heap.setPhase, Phase.page]
      · simp [Heap.setPhase, Phase.extra]
      · simp [Heap.setPhase, Phase.slot]
    · rw [if_pos hroot]
      refine ⟨_, rfl, Rep.keeps (h.setPhase ?_ ?_ ?_ ?_ ?_) rfl (fun _ hq => hq)⟩
      · simp [ht, Phase.page]
      · simp [ht, Phase.extra, hva]
      · simp [ht, Phase.slot]
      · rintro k' sz' ⟨⟩
        exact ⟨hk, hsz⟩
      · rintro x ⟨⟩
        exact hroot

theorem gotKpages_keeps {va : ℕ} (h : Rep s all same free)
    (hva : va = 0 ∨ va % pageSize = 0 ∧ 0 < va ∧ va + pageSize ≤ 2 ^ 32 ∧ va ∉ s.held) :
    Ensures Halts (Keeps { s with held := if va = 0 then s.held else va::s.held } all) (s.gotKpages t va) := by
  unfold Heap.gotKpages
  cases ht : s.threads t with
  | pageWanted k sz =>
    have hrequest : ∀ k' sz', (Phase.pageGot k sz va).request = some (k', sz') → k' < nsizes ∧ sz' ≤ sizeOf k' := by
      rintro k' sz' ⟨⟩
      exact h.requests.fits t k sz (by rw [ht]; rfl)
    obtain hz | ⟨hmod, hpos, hend, hnew⟩ := hva
    · rw [if_pos hz]
      refine Rep.keeps (h.setPhase ?_ ?_ ?_ hrequest ?_) rfl (fun _ hq => hq)
      · simp [ht, Phase.page, hz]
      · simp [ht, Phase.extra]
      · simp [Phase.slot]
      · simp [Phase.rooted]
    · have hne : va ≠ 0 := by omega
      rw [if_neg hne]
      refine Rep.keeps (?_ : Rep _ all same free) rfl (fun _ hq => hq)
      refine ⟨h.lists, h.blocks, h.used, ?_, ?_, h.requests.setPhase hrequest (by simp [Phase.rooted])⟩
      · refine h.places.getPage hnew ⟨hmod, hpos, hend⟩ ?_ ?_
        · simp [ht, Phase.page, hne]
        · simp [ht, Phase.extra]
      · exact h.slots.setPhase (by simp [Phase.slot])
  | refPageWanted k sz prpage w j =>
    have hrequest : ∀ k' sz', (Phase.refPageGot k sz prpage w j va).request = some (k', sz') →
        k' < nsizes ∧ sz' ≤ sizeOf k' := by
      rintro k' sz' ⟨⟩
      exact h.requests.fits t k sz (by rw [ht]; rfl)
    obtain hz | ⟨hmod, hpos, hend, hnew⟩ := hva
    · rw [if_pos hz]
      refine Rep.keeps (h.setPhase ?_ ?_ ?_ hrequest ?_) rfl (fun _ hq => hq)
      · simp [ht, Phase.page]
      · simp [ht, Phase.extra, hz]
      · simp [ht, Phase.slot]
      · simp [Phase.rooted]
    · have hne : va ≠ 0 := by omega
      rw [if_neg hne]
      refine Rep.keeps (?_ : Rep _ all same free) rfl (fun _ hq => hq)
      refine ⟨h.lists, h.blocks, h.used, ?_, ?_, h.requests.setPhase hrequest (by simp [Phase.rooted])⟩
      · refine h.places.getExtra hnew ⟨hmod, hpos, hend⟩ ?_ ?_
        · simp [ht, Phase.page]
        · simp [ht, Phase.extra, hne]
      · exact h.slots.setPhase (by simp [ht, Phase.slot])
  | idle => exact .inl rfl
  | pageGot k sz prpage => exact .inl rfl
  | refPageGot k sz prpage w j va => exact .inl rfl
  | refPageExtra k sz prpage w j va => exact .inl rfl
  | refPageBack k sz prpage w j => exact .inl rfl
  | giving prpage => exact .inl rfl

theorem ensures_of_exists {σ ε : Type*} {r : ε → Prop} {P : σ → Prop} {x : Except ε σ}
    (h : ∃ s', x = .ok s' ∧ P s') : Ensures r P x := by
  obtain ⟨s', rfl, hs'⟩ := h
  exact hs'

theorem resume_keeps (h : Rep s all same free) : Ensures Halts (Keeps s all) (s.resume t) := by
  unfold Heap.resume
  cases ht : s.threads t with
  | idle => exact .inl rfl
  | pageWanted k sz => exact .inl rfl
  | refPageWanted k sz prpage w j => exact .inl rfl
  | pageGot k sz prpage =>
    by_cases hz : prpage = 0
    · simp only [if_pos hz]
      refine Rep.keeps (h.setPhase ?_ ?_ ?_ ?_ ?_) rfl (fun _ hq => hq)
      · simp [ht, Phase.page, hz]
      · simp [ht, Phase.extra]
      · simp [Phase.slot]
      · simp [Phase.request]
      · simp [Phase.rooted]
    · have hheld : prpage ∈ s.held := (h.places.exact.covers _).mpr ⟨.page t, by simp [owned, ht, Phase.page, hz]⟩
      simp only [if_neg hz, if_pos (h.places.good prpage hheld).1]
      exact ensures_of_exists (allocpageref_keeps h ht hz)
  | refPageGot k sz prpage w j va => exact ensures_of_exists (pagerefpageGot_keeps h ht)
  | refPageExtra k sz prpage w j va =>
    refine Rep.keeps (?_ : Rep _ all same free) rfl (fun _ hq => List.mem_of_mem_erase hq)
    refine ⟨h.lists, h.blocks, h.used, ?_, ?_, h.requests.setPhase ?_ ?_⟩
    · refine h.places.giveExtra ?_ ?_
      · simp [ht, Phase.page]
      · simp [ht, Phase.extra]
    · exact h.slots.setPhase (by simp [ht, Phase.slot])
    · rintro k' sz' ⟨⟩
      exact h.requests.fits t k sz (by rw [ht]; rfl)
    · rintro x ⟨⟩
      exact h.requests.rooted t w (by rw [ht]; rfl)
  | refPageBack k sz prpage w j =>
    obtain ⟨hk, hsz⟩ := h.requests.fits t k sz (by rw [ht]; rfl)
    simp only [if_pos (h.requests.rooted t w (by rw [ht]; rfl))]
    refine ensures_of_exists (havePageref_keeps h ?_ ?_ ?_ hk hsz)
    · simp [ht, Phase.page]
    · simp [ht, Phase.extra]
    · simp [ht, Phase.slot]
  | giving prpage =>
    refine Rep.keeps (?_ : Rep _ all same free) rfl (fun _ hq => List.mem_of_mem_erase hq)
    refine ⟨h.lists, h.blocks, h.used, ?_, ?_, h.requests.setPhase ?_ ?_⟩
    · refine h.places.givePage ?_ ?_
      · simp [ht, Phase.page]
      · simp [ht, Phase.extra]
    · exact h.slots.setPhase (by simp [Phase.slot])
    · simp [Phase.request]
    · simp [Phase.rooted]

omit [DecidableEq T] in
theorem findFree_ok {n : ℕ} {o : Option ℕ} {l : List ℕ} (h : Path (fun q => (s.refs q).nextSamesize) o l)
    (hk : ∀ r ∈ l, (s.refs r).blocktype = k) (hn : l.length < n) :
    ∃ x, s.findFree k n o = .ok x ∧ ∀ r, x = some r → r ∈ l ∧ 0 < (s.refs r).nfree := by
  induction l generalizing o n with
  | nil =>
    obtain ⟨n, rfl⟩ : ∃ m, n = m + 1 := ⟨n - 1, by omega⟩
    rw [path_nil] at h
    subst h
    exact ⟨none, rfl, fun r hr => nomatch hr⟩
  | cons a l ih =>
    obtain ⟨n, rfl⟩ : ∃ m, n = m + 1 := ⟨n - 1, by omega⟩
    obtain ⟨rfl, hrest⟩ := h
    simp only [Heap.findFree, if_pos (hk a List.mem_cons_self)]
    by_cases hpos : 0 < (s.refs a).nfree
    · rw [if_pos hpos]
      refine ⟨some a, rfl, ?_⟩
      rintro r ⟨⟩
      exact ⟨List.mem_cons_self, hpos⟩
    · rw [if_neg hpos]
      obtain ⟨x, heq, hx⟩ := ih hrest (fun r hr => hk r (List.mem_cons_of_mem _ hr)) (Nat.lt_of_succ_lt_succ hn)
      exact ⟨x, heq, fun r hr => ⟨List.mem_cons_of_mem _ (hx r hr).1, (hx r hr).2⟩⟩

theorem blocktype_spec (hsz : sz < largestSubpageSize) :
    ∃ k, blocktype sz = some k ∧ k < nsizes ∧ sz ≤ sizeOf k := by
  cases hb : blocktype sz with
  | none =>
    unfold blocktype at hb
    rw [List.find?_eq_none] at hb
    have h7 := hb 7 (by decide)
    have hbig : sizeOf 7 = 2048 := rfl
    unfold largestSubpageSize at hsz
    simp only [decide_eq_true_eq, hbig] at h7
    omega
  | some k =>
    refine ⟨k, rfl, List.mem_range.mp (List.mem_of_find?_eq_some hb), ?_⟩
    simpa using List.find?_some hb

theorem subpageKmalloc_keeps (h : Rep s all same free) (ht : s.threads t = .idle) (hsz : sz < largestSubpageSize) :
    ∃ s', s.subpageKmalloc t sz = .ok s' ∧ Keeps s all s' := by
  obtain ⟨k, hb, hk, hle⟩ := blocktype_spec hsz
  have hsame : ∀ r ∈ same k, r ∈ all ∧ (s.refs r).blocktype = k := fun r hr => (h.lists.mem_same k hk r).mp hr
  have hlen : (same k).length < totalPagerefs + 1 := by
    have hsub : same k ⊆ all := fun r hr => (hsame r hr).1
    exact Nat.lt_succ_of_le
      ((List.subperm_of_subset (h.lists.samePath k hk).nodup hsub).length_le.trans h.length_le)
  obtain ⟨x, hfind, hx⟩ := findFree_ok (h.lists.samePath k hk) (fun r hr => (hsame r hr).2) hlen
  unfold Heap.subpageKmalloc
  simp only [hb, hfind]
  cases x with
  | none =>
    refine ⟨_, rfl, Rep.keeps (h.setPhase ?_ ?_ ?_ ?_ ?_) rfl (fun _ hq => hq)⟩
    · simp [ht, Phase.page]
    · simp [ht, Phase.extra]
    · simp [Phase.slot]
    · rintro k' sz' ⟨⟩
      exact ⟨hk, hle⟩
    · simp [Phase.rooted]
  | some r =>
    obtain ⟨hr, hpos⟩ := hx r rfl
    obtain ⟨hra, hrk⟩ := hsame r hr
    obtain ⟨a, f, -, heq, hrep⟩ := Rep.doalloc (t := t) h.lists h.blocks (fun q hq _ => h.used q hq) hra hpos
      (show sz ≤ _ by rwa [Pageref.size, hrk])
      (h.places.setPhase (by rw [ht]) (by rw [ht]))
      (h.slots.setPhase (by simp [Phase.slot]))
      (h.requests.setPhase (by simp [Phase.request]) (by simp [Phase.rooted]))
    refine ⟨_, heq, fun _ hq => hq, all, same, _, hrep, fun q hq => ⟨hq, ?_⟩⟩
    have hpab : ∀ x, (update s.refs r ((s.refs r).popped f) x).pageaddrAndBlocktype =
        (s.refs x).pageaddrAndBlocktype := update_pab rfl
    exact congrArg (fun x => x / pageSize * pageSize) (hpab q)

section Free

variable {ptr : ℕ}

omit [DecidableEq T] in
theorem findPage_ok {n : ℕ} {o : Option ℕ} {l : List ℕ} (h : Path (fun q => (s.refs q).nextAll) o l)
    (hk : ∀ r ∈ l, (s.refs r).blocktype < nsizes) (hn : l.length < n) :
    ∃ x, s.findPage ptr n o = .ok x ∧
      (∀ r, x = some r → r ∈ l ∧ (s.refs r).pageaddr ≤ ptr ∧ ptr < (s.refs r).pageaddr + pageSize) ∧
      (x = none → ∀ r ∈ l, ¬((s.refs r).pageaddr ≤ ptr ∧ ptr < (s.refs r).pageaddr + pageSize)) := by
  induction l generalizing o n with
  | nil =>
    obtain ⟨n, rfl⟩ : ∃ m, n = m + 1 := ⟨n - 1, by omega⟩
    rw [path_nil] at h
    subst h
    exact ⟨none, rfl, fun r hr => (nomatch hr), fun _ r hr => (nomatch hr)⟩
  | cons a l ih =>
    obtain ⟨n, rfl⟩ : ∃ m, n = m + 1 := ⟨n - 1, by omega⟩
    obtain ⟨rfl, hrest⟩ := h
    simp only [Heap.findPage, if_pos (hk a List.mem_cons_self)]
    by_cases hon : (s.refs a).pageaddr ≤ ptr ∧ ptr < (s.refs a).pageaddr + pageSize
    · rw [if_pos hon]
      refine ⟨some a, rfl, ?_, fun hx => nomatch hx⟩
      rintro r ⟨⟩
      exact ⟨List.mem_cons_self, hon⟩
    · rw [if_neg hon]
      obtain ⟨x, heq, hsome, hnone⟩ :=
        ih hrest (fun r hr => hk r (List.mem_cons_of_mem _ hr)) (Nat.lt_of_succ_lt_succ hn)
      refine ⟨x, heq, fun r hr => ⟨List.mem_cons_of_mem _ (hsome r hr).1, (hsome r hr).2⟩, ?_⟩
      intro hx r hr
      obtain rfl | hr := List.mem_cons.mp hr
      · exact hon
      · exact hnone hx r hr

/-- The root that has lost a pageref. -/
def KheapRoot.without (root : KheapRoot) (j : ℕ) : KheapRoot :=
  { root with pagerefsInuse := update root.pagerefsInuse j false, numinuse := root.numinuse - 1 }

omit [DecidableEq T] in
theorem freepagerefFrom_spec (hpl : Places s.refs s.kheaproots s.threads s.held all) {ws : List ℕ} (hw : w ∈ ws)
    (hj : j < npagerefsPerPage) (hpage : (s.kheaproots w).page ≠ 0) (hin : (s.kheaproots w).pagerefsInuse j = true)
    (hnum : 0 < (s.kheaproots w).numinuse) :
    s.freepagerefFrom (s.refAddr w j) ws = .error .pagelessRoot ∨
      s.freepagerefFrom (s.refAddr w j) ws = .ok (s.setRoot w ((s.kheaproots w).without j)) := by
  have hself : (s.refAddr w j - (s.kheaproots w).page) / sizeofPageref = j := by
    unfold Heap.refAddr sizeofPageref
    omega
  induction ws with
  | nil => cases hw
  | cons x ws ih =>
    simp only [Heap.freepagerefFrom]
    by_cases hx : (s.kheaproots x).page = 0
    · have hxw : w ≠ x := by
        rintro rfl
        exact hpage hx
      rw [if_pos hx]
      by_cases hnone : (s.kheaproots x).numinuse = 0
      · rw [if_pos hnone]
        exact ih ((List.mem_cons.mp hw).resolve_left hxw)
      · rw [if_neg hnone]
        exact .inl rfl
    · rw [if_neg hx]
      by_cases hxw : w = x
      · subst hxw
        have hon : (s.kheaproots w).page ≤ s.refAddr w j ∧
            (s.refAddr w j - (s.kheaproots w).page) / sizeofPageref < npagerefsPerPage := by
          rw [hself]
          exact ⟨Nat.le_add_right _ _, hj⟩
        rw [if_pos hon, hself, if_pos ⟨hin, hnum⟩]
        exact .inr rfl
      · have hoff : ¬((s.kheaproots x).page ≤ s.refAddr w j ∧
            (s.refAddr w j - (s.kheaproots x).page) / sizeofPageref < npagerefsPerPage) := by
          rintro ⟨hle, hlt⟩
          have h1 := hpl.root_good hpage
          have h2 := hpl.root_good hx
          refine hxw (hpl.slot_inj hpage hx hj hlt ?_).1
          unfold Heap.refAddr sizeofPageref pageSize at *
          omega
        rw [if_neg hoff]
        exact ih ((List.mem_cons.mp hw).resolve_left hxw)

omit [DecidableEq T] in
/-- `freepageref` finds the pageref, unless it comes across a root without a page before. -/
theorem freepageref_spec (hpl : Places s.refs s.kheaproots s.threads s.held all)
    (hsl : Slots s.kheaproots s.threads all) (hnd : all.Nodup) (hr : r ∈ all) :
    s.freepageref r = .error .pagelessRoot ∨
      ∃ w root, s.freepageref r = .ok (s.setRoot w root) ∧ root.page = (s.kheaproots w).page ∧
        Slots (update s.kheaproots w root) s.threads (all.erase r) := by
  obtain ⟨w, hw, j, hj, hpw, rfl, hin⟩ := hsl.filled r hr
  have hnum : 0 < (s.kheaproots w).numinuse := by
    rw [hsl.count w hw]
    exact List.countP_pos_iff.mpr ⟨j, List.mem_range.mpr hj, hin⟩
  obtain hstop | hok := freepagerefFrom_spec hpl (List.mem_range.mpr hw) hj hpw hin hnum
  · exact .inl hstop
  · exact .inr ⟨w, _, hok, rfl, hsl.release hnd hw hj hpw hr hin rfl rfl rfl⟩

/-- The memory after a block has been filled and linked to the head of the free list. -/
def freed (mem : ℕ → ℕ) (pr : Pageref) (ptr : ℕ) : ℕ → ℕ :=
  update (fillDeadbeef mem ptr pr.size) ptr
    (if pr.freelistOffset = invalidOffset then 0 else pr.pageaddr + pr.freelistOffset)

theorem freed_out {mem : ℕ → ℕ} {pr : Pageref} {x : ℕ} (hk : pr.blocktype < nsizes)
    (hx : x < ptr ∨ ptr + pr.size ≤ x) : freed mem pr ptr x = mem x := by
  have hpos := (sizeOf_facts hk).1
  have hne : x ≠ ptr := by
    simp only [Pageref.size] at hx
    omega
  have hout : ¬(ptr ≤ x ∧ x < ptr + pr.size / 4 * 4 ∧ (x - ptr) % 4 = 0) := by omega
  rw [freed, update_of_ne hne, fillDeadbeef, if_neg hout]

theorem freed_self {mem : ℕ → ℕ} {pr : Pageref} (hpos : 0 < pr.pageaddr) :
    pointer (freed mem pr ptr ptr) = pr.head := by
  rw [freed, update_self, Pageref.head]
  split
  · rfl
  · rw [pointer, if_neg (by omega)]

/-- A live block's pointer is not the head of the page's free list. -/
theorem head_ne {mem : ℕ → ℕ} {live f : List ℕ} {pr : Pageref} (h : Page mem live pr f) (hb : pr.IsBlock ptr)
    (hl : ptr ∈ live) : (if pr.freelistOffset = invalidOffset then 0 else pr.pageaddr + pr.freelistOffset) ≠ ptr := by
  have hlo := (IsBlock.bounds h.typed hb).1
  have hpos := h.addr.1
  split
  · omega
  · rename_i hoff
    intro heq
    have hhead : pr.head = some ptr := by rw [Pageref.head, if_neg hoff, heq]
    have hpath := h.path
    rw [hhead] at hpath
    cases f with
    | nil => cases hpath
    | cons a f =>
      cases hpath.1
      exact (h.split ptr hb).mp List.mem_cons_self hl

/-- The heap after the block has been put on the free list, and before the page is looked at. -/
def Heap.pushed (s : Heap T) (r ptr : ℕ) : Heap T :=
  { s with
    mem := freed s.mem (s.refs r) ptr
    refs := update s.refs r { s.refs r with freelistOffset := ptr - (s.refs r).pageaddr, nfree := (s.refs r).nfree + 1 }
    live := s.live.filter (fun b => decide (b.1 ≠ ptr)) }

theorem freeOn_eq (h : Rep s all same free) (hr : r ∈ all) (hb : (s.refs r).IsBlock ptr)
    (hl : ptr ∈ s.live.map Prod.fst) :
    s.freeOn t ptr r =
      if (s.refs r).nfree + 1 = pageSize / (s.refs r).size then
        match (s.pushed r ptr).removeLists r (s.refs r).blocktype with
        | .error e => .error e
        | .ok s'' => match s''.freepageref r with
          | .error e => .error e
          | .ok u => .ok (u.setPhase t (.giving (s.refs r).pageaddr))
      else .ok (s.pushed r ptr) := by
  have hpage := h.blocks.page r hr
  obtain ⟨hlo, hhi, hmod⟩ := (isBlock_iff hpage.typed).mp hb
  have hlt := h.used r hr
  have hoff : ptr - (s.refs r).pageaddr < pageSize ∧ (ptr - (s.refs r).pageaddr) % sizeOf (s.refs r).blocktype = 0 :=
    ⟨by omega, hmod⟩
  have hle : (s.refs r).nfree + 1 ≤ pageSize / sizeOf (s.refs r).blocktype := hlt
  simp only [Heap.freeOn, if_pos hoff, if_pos (head_ne hpage hb hl), if_pos hle]
  rfl

/-- The last live block of a page goes, and the page with it. -/
structure Releases (s : Heap T) (all : List ℕ) (t : T) (ptr r : ℕ) (s' : Heap T) : Prop where
  mem : r ∈ all
  block : (s.refs r).IsBlock ptr
  rep : ∃ same' free', Rep s' (all.erase r) same' free'
  pages : ∀ q ∈ all, (s'.refs q).pageaddr = (s.refs q).pageaddr
  held : s'.held = s.held
  live : s'.live = s.live.filter (fun b => decide (b.1 ≠ ptr))
  none : ∀ b ∈ s'.live, ¬(s.refs r).IsBlock b.1
  giving : s'.threads t = .giving (s.refs r).pageaddr

omit [DecidableEq T] in
theorem Rep.pushed (h : Rep s all same free) (hr : r ∈ all) (hb : (s.refs r).IsBlock ptr)
    (hl : ptr ∈ s.live.map Prod.fst) :
    Lists (s.pushed r ptr).refs s.sizebases s.allbase all same ∧
      Blocks (s.pushed r ptr).refs (s.pushed r ptr).mem (s.pushed r ptr).live all (update free r (ptr::free r)) := by
  have hpage := h.blocks.page r hr
  have hpab : ∀ q, ((s.pushed r ptr).refs q).pageaddrAndBlocktype = (s.refs q).pageaddrAndBlocktype := update_pab rfl
  constructor
  · refine h.lists.congr ?_ ?_ (fun q _ => hpab q)
    · intro q _
      by_cases hq : q = r
      · subst hq
        simp [Heap.pushed]
      · simp [Heap.pushed, hq]
    · intro q _
      by_cases hq : q = r
      · subst hq
        simp [Heap.pushed]
      · simp [Heap.pushed, hq]
  · exact h.blocks.push hr hb hl (freed_self hpage.addr.1) (fun x hx => freed_out hpage.typed hx)

omit [DecidableEq T] in
theorem pushed_pageaddr (s : Heap T) (r ptr q : ℕ) : ((s.pushed r ptr).refs q).pageaddr = (s.refs q).pageaddr := by
  have hpab : ∀ q, ((s.pushed r ptr).refs q).pageaddrAndBlocktype = (s.refs q).pageaddrAndBlocktype := update_pab rfl
  rw [Pageref.pageaddr, Pageref.pageaddr, hpab]

omit [DecidableEq T] in
/-- A block is freed on a page that keeps another. -/
theorem Rep.free_keeps (h : Rep s all same free) (hr : r ∈ all) (hb : (s.refs r).IsBlock ptr)
    (hl : ptr ∈ s.live.map Prod.fst) (hmore : (s.refs r).nfree + 1 ≠ pageSize / (s.refs r).size) :
    Keeps s all (s.pushed r ptr) := by
  obtain ⟨hlists, hblocks⟩ := h.pushed hr hb hl
  refine ⟨fun _ hq => hq, all, same, update free r (ptr::free r), ⟨hlists, hblocks, ?_, ?_, h.slots, h.requests⟩,
    fun q hq => ⟨hq, pushed_pageaddr s r ptr q⟩⟩
  · intro q hq
    have hlt := h.used q hq
    by_cases hqr : q = r
    · subst hqr
      simp only [Heap.pushed, update_self, Pageref.size, Pageref.blocktype] at hmore ⊢
      simp only [Pageref.size, Pageref.blocktype] at hlt
      omega
    · simp only [Heap.pushed, update_of_ne hqr]
      exact hlt
  · exact h.places.congr (fun q _ => pushed_pageaddr s r ptr q)

/-- The last live block of a page is freed. -/
theorem Rep.free_releases (h : Rep s all same free) (ht : s.threads t = .idle) (hr : r ∈ all)
    (hb : (s.refs r).IsBlock ptr) (hl : ptr ∈ s.live.map Prod.fst)
    (hlast : (s.refs r).nfree + 1 = pageSize / (s.refs r).size) :
    Ensures Halts (Releases s all t ptr r)
      (match (s.pushed r ptr).removeLists r (s.refs r).blocktype with
        | .error e => .error e
        | .ok s'' => match s''.freepageref r with
          | .error e => .error e
          | .ok u => .ok (u.setPhase t (.giving (s.refs r).pageaddr))) := by
  obtain ⟨hlists, hblocks⟩ := h.pushed hr hb hl
  have hnd := h.lists.allPath.nodup
  have htype : ((s.pushed r ptr).refs r).blocktype = (s.refs r).blocktype := by
    simp [Heap.pushed, Pageref.blocktype]
  obtain ⟨refs', bases', base', heq, hbody, hlists'⟩ :=
    removeLists_ok (s := s.pushed r ptr) hlists hr htype h.length_le
  have hpages : ∀ q, (refs' q).pageaddr = (s.refs q).pageaddr :=
    fun q => (hbody.pageaddr q).trans (pushed_pageaddr s r ptr q)
  have hplaces : Places refs' s.kheaproots s.threads s.held all := h.places.congr (fun q _ => hpages q)
  -- all blocks of the page are on its free list
  have hnone : ∀ b ∈ (s.pushed r ptr).live, ¬((s.pushed r ptr).refs r).IsBlock b.1 := by
    intro b hbl hblk
    have hpage := hblocks.page r hr
    have hfull : ((s.pushed r ptr).refs r).nfree = pageSize / ((s.pushed r ptr).refs r).size := by
      rw [Pageref.size, htype, ← Pageref.size, ← hlast]
      simp [Heap.pushed]
    exact (hpage.split b.1 hblk).mp (hpage.all_free hfull hblk) (List.mem_map_of_mem hbl)
  have hblocks' := (hblocks.congr hbody).drop (r := r) (fun b hbl hblk => hnone b hbl (hbody.isBlock.mp hblk))
  rw [heq]
  simp only []
  obtain hstop | ⟨w, root, hok, hroot, hslots⟩ := freepageref_spec
      (s := { s.pushed r ptr with refs := refs', sizebases := bases', allbase := base' }) hplaces h.slots hnd hr
  · rw [hstop]
    exact .inr rfl
  · rw [hok]
    refine ⟨hr, hb, ⟨_, _, hlists', hblocks', ?_, ?_, ?_, ?_⟩, fun q _ => hpages q, rfl, rfl, ?_, ?_⟩
    · intro q hq
      obtain ⟨hne, hq⟩ := hnd.mem_erase_iff.mp hq
      have hlt := h.used q hq
      have hsame : (s.pushed r ptr).refs q = s.refs q := update_of_ne hne _ _
      obtain ⟨hpab, -, hnfree⟩ := hbody q
      simp only [Heap.setPhase, Heap.setRoot, hnfree, hbody.size, hsame]
      exact hlt
    · have hleave := hplaces.leave (q := .giving (s.refs r).pageaddr) hnd hr (by rw [ht]; rfl)
        (by rw [Phase.page, hpages]) (by rw [ht]; rfl)
      exact hleave.setRoot hroot
    · exact hslots.setPhase (by simp [Phase.slot])
    · refine (h.requests.setRoots ?_).setPhase (by simp [Phase.request]) (by simp [Phase.rooted])
      intro x hx
      by_cases hxw : x = w
      · subst hxw
        simpa [hroot, Heap.pushed] using hx
      · simpa [hxw, Heap.pushed] using hx
    · intro b hbl hblk
      refine hnone b hbl ?_
      simpa [Pageref.IsBlock, Pageref.size, Pageref.blocktype, Pageref.pageaddr, Heap.pushed] using hblk
    · simp

/-- What freeing a live block does. -/
theorem subpageKfree_spec (h : Rep s all same free) (ht : s.threads t = .idle) (hl : ptr ∈ s.live.map Prod.fst) :
    Ensures Halts (fun x => ∃ s', x = some s' ∧ s'.live = s.live.filter (fun b => decide (b.1 ≠ ptr)) ∧
        (Keeps s all s' ∨ ∃ r, Releases s all t ptr r s'))
      (s.subpageKfree t ptr) := by
  obtain ⟨b, hbl, rfl⟩ := List.mem_map.mp hl
  obtain ⟨r, hr, hb, -⟩ := h.blocks.owner b hbl
  have hon := (isBlock_iff (h.lists.typed r hr)).mp hb
  obtain ⟨x, hfind, hsome, hnone⟩ := findPage_ok h.lists.allPath h.lists.typed (Nat.lt_succ_of_le h.length_le)
  unfold Heap.subpageKfree
  rw [hfind]
  cases x with
  | none => exact absurd ⟨hon.1, hon.2.1⟩ (hnone rfl r hr)
  | some q =>
    obtain ⟨hq, hlo, hhi⟩ := hsome q rfl
    have hqr : q = r := by
      refine h.blocks.apart q hq r hr ?_
      rw [← pageaddr_of_mem hlo hhi, ← isBlock_pageaddr (h.lists.typed r hr) hb]
    subst hqr
    simp only [freeOn_eq h hr hb hl]
    by_cases hlast : (s.refs q).nfree + 1 = pageSize / (s.refs q).size
    · rw [if_pos hlast]
      have hrel := h.free_releases ht hr hb hl hlast
      revert hrel
      generalize (match (s.pushed q b.1).removeLists q (s.refs q).blocktype with
        | .error e => Except.error e
        | .ok s'' => match s''.freepageref q with
          | .error e => Except.error e
          | .ok u => .ok (u.setPhase t (.giving (s.refs q).pageaddr))) = y
      intro hrel
      cases y with
      | error e => exact hrel
      | ok s' => exact ⟨s', rfl, hrel.live, .inr ⟨q, hrel⟩⟩
    · rw [if_neg hlast]
      exact ⟨_, rfl, rfl, .inl (h.free_keeps hr hb hl hlast)⟩

end Free

end OS161.Kmalloc
