import OS161.KmallocBlocks

/-!
# The lists of pagerefs

Which pagerefs there are is said by the list of all of them; the list of a
block type has those of that type. The blocks of all pages are the live ones
and those on the free lists, so that an allocation, a new page, a freed block
and a page that is given up each change one page and leave the others alone.
-/

set_option autoImplicit false

namespace OS161.Kmalloc

open Function Links PhysicalMemory

variable {refs refs' : ℕ → Pageref} {sizebases : ℕ → Option ℕ} {allbase : Option ℕ} {all : List ℕ}
  {same free : ℕ → List ℕ} {mem mem' : ℕ → ℕ} {live : List (ℕ × ℕ)} {r k : ℕ}

structure Lists (refs : ℕ → Pageref) (sizebases : ℕ → Option ℕ) (allbase : Option ℕ) (all : List ℕ)
    (same : ℕ → List ℕ) : Prop where
  allPath : Path (fun r => (refs r).nextAll) allbase all
  samePath : ∀ k < nsizes, Path (fun r => (refs r).nextSamesize) (sizebases k) (same k)
  typed : ∀ r ∈ all, (refs r).blocktype < nsizes
  mem_same : ∀ k < nsizes, ∀ r, r ∈ same k ↔ r ∈ all ∧ (refs r).blocktype = k

theorem Lists.congr (h : Lists refs sizebases allbase all same)
    (hall : ∀ r ∈ all, (refs' r).nextAll = (refs r).nextAll)
    (hsame : ∀ r ∈ all, (refs' r).nextSamesize = (refs r).nextSamesize)
    (hpab : ∀ r ∈ all, (refs' r).pageaddrAndBlocktype = (refs r).pageaddrAndBlocktype) :
    Lists refs' sizebases allbase all same where
  allPath := h.allPath.congr hall
  samePath k hk := (h.samePath k hk).congr (fun r hr => hsame r ((h.mem_same k hk r).mp hr).1)
  typed r hr := by
    rw [Pageref.blocktype, hpab r hr]
    exact h.typed r hr
  mem_same k hk r := by
    rw [h.mem_same k hk r]
    refine and_congr_right (fun hr => ?_)
    rw [Pageref.blocktype, Pageref.blocktype, hpab r hr]

/-- A new pageref goes to the front of both its lists. -/
theorem Lists.push (h : Lists refs sizebases allbase all same) {pr : Pageref} (hr : r ∉ all) (hk : k < nsizes)
    (htype : pr.blocktype = k) (hall : pr.nextAll = allbase) (hsame : pr.nextSamesize = sizebases k) :
    Lists (update refs r pr) (update sizebases k (some r)) (some r) (r::all) (update same k (r::same k)) := by
  have hother : ∀ q ∈ all, update refs r pr q = refs q := by
    intro q hq
    refine update_of_ne ?_ _ _
    rintro rfl
    exact hr hq
  constructor
  · refine ⟨rfl, ?_⟩
    simp only [update_self, hall]
    exact h.allPath.congr (fun q hq => by rw [hother q hq])
  · intro i hi
    have hpath : Path (fun q => (update refs r pr q).nextSamesize) (sizebases i) (same i) :=
      (h.samePath i hi).congr (fun q hq => by rw [hother q ((h.mem_same i hi q).mp hq).1])
    by_cases hik : i = k
    · subst hik
      simp only [update_self]
      refine ⟨rfl, ?_⟩
      simp only [update_self, hsame]
      exact hpath
    · simp only [update_of_ne hik]
      exact hpath
  · intro q hq
    obtain rfl | hq := List.mem_cons.mp hq
    · rw [update_self, htype]
      exact hk
    · rw [hother q hq]
      exact h.typed q hq
  · intro i hi q
    have hold := h.mem_same i hi q
    by_cases hqr : q = r
    · subst hqr
      have hout : q ∉ same i := fun hq => hr (hold.mp hq).1
      by_cases hik : i = k
      · simp [hik, htype]
      · simp [update_of_ne hik, hout, htype, Ne.symm hik]
    · by_cases hik : i = k
      · subst hik
        simp [hqr, hold]
      · simp [update_of_ne hik, hqr, hold]

/-- The pageref's fields apart from its links. -/
def SameBody (refs refs' : ℕ → Pageref) : Prop :=
  ∀ r, (refs' r).pageaddrAndBlocktype = (refs r).pageaddrAndBlocktype ∧
    (refs' r).freelistOffset = (refs r).freelistOffset ∧ (refs' r).nfree = (refs r).nfree

theorem SameBody.refl (refs : ℕ → Pageref) : SameBody refs refs := fun _ => ⟨rfl, rfl, rfl⟩

theorem SameBody.trans {refs'' : ℕ → Pageref} (h : SameBody refs refs') (h' : SameBody refs' refs'') :
    SameBody refs refs'' := by
  intro r
  obtain ⟨h1, h2, h3⟩ := h r
  obtain ⟨h1', h2', h3'⟩ := h' r
  exact ⟨h1'.trans h1, h2'.trans h2, h3'.trans h3⟩

section Remove

variable {T : Type*} {s : Heap T}

/-- What `remove_lists` does to one of the lists, and all that it does. -/
theorem removeSamesize_ok {l : List ℕ} (h : Path (fun q => (s.refs q).nextSamesize) (s.sizebases k) l)
    (hr : r ∈ l) (hlen : l.length ≤ totalPagerefs) :
    ∃ refs' bases', s.removeSamesize r k = .ok { s with refs := refs', sizebases := bases' } ∧
      SameBody s.refs refs' ∧ (∀ q, (refs' q).nextAll = (s.refs q).nextAll) ∧
      (∀ q ∉ l, refs' q = s.refs q) ∧ (∀ i, i ≠ k → bases' i = s.sizebases i) ∧
      Path (fun q => (refs' q).nextSamesize) (bases' k) (l.erase r) := by
  obtain ⟨g, hseek, hwhere, hpath⟩ := seek_path_base h (Nat.lt_succ_of_le hlen) hr
  unfold Heap.removeSamesize
  rw [hseek]
  cases g with
  | none =>
    refine ⟨s.refs, update s.sizebases k (s.refs r).nextSamesize, rfl, .refl _, fun _ => rfl, fun _ _ => rfl,
      fun i hi => update_of_ne hi _ _, ?_⟩
    refine hpath _ _ ⟨?_, fun _ _ => rfl, fun hn => absurd rfl hn⟩
    simp [follow]
  | some g =>
    have hg : g ∈ l := by
      obtain hg | ⟨c, hc, hg⟩ := hwhere
      · cases hg
      · exact Option.some.inj hg ▸ hc
    refine ⟨_, s.sizebases, rfl, ?_, ?_, ?_, fun _ _ => rfl, ?_⟩
    · intro q
      by_cases hq : q = g
      · subst hq
        simp
      · simp [hq]
    · intro q
      by_cases hq : q = g
      · subst hq
        simp
      · simp [hq]
    · intro q hq
      refine update_of_ne ?_ _ _
      rintro rfl
      exact hq hg
    · refine hpath _ _ ⟨?_, ?_, fun _ => rfl⟩
      · simp [follow]
      · intro b hb
        have hbg : b ≠ g := fun hbg => hb (hbg ▸ rfl)
        simp [update_of_ne hbg]

theorem removeAll_ok {l : List ℕ} (h : Path (fun q => (s.refs q).nextAll) s.allbase l)
    (hr : r ∈ l) (hlen : l.length ≤ totalPagerefs) :
    ∃ refs' base', s.removeAll r = .ok { s with refs := refs', allbase := base' } ∧
      SameBody s.refs refs' ∧ (∀ q, (refs' q).nextSamesize = (s.refs q).nextSamesize) ∧
      Path (fun q => (refs' q).nextAll) base' (l.erase r) := by
  obtain ⟨g, hseek, hwhere, hpath⟩ := seek_path_base h (Nat.lt_succ_of_le hlen) hr
  unfold Heap.removeAll
  rw [hseek]
  cases g with
  | none =>
    refine ⟨s.refs, (s.refs r).nextAll, rfl, .refl _, fun _ => rfl, ?_⟩
    exact hpath _ _ ⟨rfl, fun _ _ => rfl, fun hn => absurd rfl hn⟩
  | some g =>
    refine ⟨_, s.allbase, rfl, ?_, ?_, ?_⟩
    · intro q
      by_cases hq : q = g
      · subst hq
        simp
      · simp [hq]
    · intro q
      by_cases hq : q = g
      · subst hq
        simp
      · simp [hq]
    · refine hpath _ _ ⟨?_, ?_, fun _ => rfl⟩
      · simp [follow]
      · intro b hb
        have hbg : b ≠ g := fun hbg => hb (hbg ▸ rfl)
        simp [update_of_ne hbg]

/-- `remove_lists` takes the pageref from both its lists and changes nothing but links. -/
theorem removeLists_ok (h : Lists s.refs s.sizebases s.allbase all same) (hr : r ∈ all)
    (hk : (s.refs r).blocktype = k) (hlen : all.length ≤ totalPagerefs) :
    ∃ refs' bases' base', s.removeLists r k =
        .ok { s with refs := refs', sizebases := bases', allbase := base' } ∧
      SameBody s.refs refs' ∧
      Lists refs' bases' base' (all.erase r) (update same k ((same k).erase r)) := by
  have hk8 : k < nsizes := hk ▸ h.typed r hr
  have hnd := h.allPath.nodup
  have hsub : same k ⊆ all := fun q hq => ((h.mem_same k hk8 q).mp hq).1
  have hlenk : (same k).length ≤ totalPagerefs :=
    (List.subperm_of_subset (h.samePath k hk8).nodup hsub).length_le.trans hlen
  obtain ⟨refs1, bases1, heq1, hbody1, hall1, hout1, hbase1, hpath1⟩ :=
    removeSamesize_ok (h.samePath k hk8) ((h.mem_same k hk8 r).mpr ⟨hr, hk⟩) hlenk
  obtain ⟨refs2, base2, heq2, hbody2, hsame2, hpath2⟩ :=
    removeAll_ok (s := { s with refs := refs1, sizebases := bases1 }) (r := r)
      (h.allPath.congr (fun q _ => hall1 q)) hr hlen
  refine ⟨refs2, bases1, base2, ?_, hbody1.trans hbody2, ?_⟩
  · simp only [Heap.removeLists, if_pos hk8, heq1, heq2]
  have hbody := hbody1.trans hbody2
  have htype : ∀ q, (refs2 q).blocktype = (s.refs q).blocktype := by
    intro q
    rw [Pageref.blocktype, Pageref.blocktype, (hbody q).1]
  constructor
  · exact hpath2
  · intro i hi
    simp only [hsame2]
    by_cases hik : i = k
    · subst hik
      simp only [update_self]
      exact hpath1
    · rw [update_of_ne hik, hbase1 i hik]
      refine (h.samePath i hi).congr ?_
      intro q hq
      -- a pageref of another type is not on the list that was changed
      have hqk : q ∉ same k := by
        intro hqk
        exact hik (((h.mem_same i hi q).mp hq).2.symm.trans ((h.mem_same k hk8 q).mp hqk).2)
      rw [hout1 q hqk]
  · intro q hq
    rw [htype]
    exact h.typed q (List.mem_of_mem_erase hq)
  · intro i hi q
    rw [htype, hnd.mem_erase_iff]
    by_cases hik : i = k
    · subst hik
      rw [update_self, (h.samePath i hi).nodup.mem_erase_iff, h.mem_same i hi q, and_assoc]
    · rw [update_of_ne hik, h.mem_same i hi q]
      constructor
      · rintro ⟨hq, hqi⟩
        refine ⟨⟨?_, hq⟩, hqi⟩
        rintro rfl
        exact hik (hqi.symm.trans hk)
      · rintro ⟨⟨-, hq⟩, hqi⟩
        exact ⟨hq, hqi⟩

end Remove

section Blocks

/-- The blocks of all pages: free, or live and large enough for what was asked for. -/
structure Blocks (refs : ℕ → Pageref) (mem : ℕ → ℕ) (live : List (ℕ × ℕ)) (all : List ℕ)
    (free : ℕ → List ℕ) : Prop where
  page : ∀ r ∈ all, Page mem (live.map Prod.fst) (refs r) (free r)
  apart : ∀ r ∈ all, ∀ q ∈ all, (refs r).pageaddr = (refs q).pageaddr → r = q
  owner : ∀ b ∈ live, ∃ r ∈ all, (refs r).IsBlock b.1 ∧ b.2 ≤ (refs r).size
  distinct : (live.map Prod.fst).Nodup

theorem pageaddr_of_mem {pr : Pageref} {a : ℕ} (hlo : pr.pageaddr ≤ a) (hhi : a < pr.pageaddr + pageSize) :
    a / pageSize * pageSize = pr.pageaddr := by
  unfold Pageref.pageaddr pageSize at *
  omega

theorem isBlock_pageaddr {pr : Pageref} {a : ℕ} (hk : pr.blocktype < nsizes) (h : pr.IsBlock a) :
    a / pageSize * pageSize = pr.pageaddr := by
  obtain ⟨hlo, hhi, -⟩ := (isBlock_iff hk).mp h
  exact pageaddr_of_mem hlo hhi

theorem Blocks.owner_unique (h : Blocks refs mem live all free) {q a : ℕ} (hr : r ∈ all) (hq : q ∈ all)
    (hra : (refs r).IsBlock a) (hqa : (refs q).IsBlock a) : r = q := by
  refine h.apart r hr q hq ?_
  rw [← isBlock_pageaddr (h.page r hr).typed hra, ← isBlock_pageaddr (h.page q hq).typed hqa]

/-- A place in a block of one page is in no block of another. -/
theorem Blocks.ne_of_ne (h : Blocks refs mem live all free) {q a c x : ℕ} (hr : r ∈ all) (hq : q ∈ all)
    (hne : q ≠ r) (hra : (refs r).IsBlock a) (hqc : (refs q).IsBlock c) (hlo : a ≤ x)
    (hhi : x < a + (refs r).size) : c ≠ x := by
  rintro rfl
  have hb := IsBlock.bounds (h.page r hr).typed hra
  have hx : c / pageSize * pageSize = (refs r).pageaddr := pageaddr_of_mem (by omega) (by omega)
  rw [isBlock_pageaddr (h.page q hq).typed hqc] at hx
  exact hne (h.apart q hq r hr hx)

/-- Live blocks are disjoint, each with all of the bytes asked for. -/
theorem Blocks.disjoint (h : Blocks refs mem live all free) {b c : ℕ × ℕ} (hb : b ∈ live) (hc : c ∈ live)
    (hne : b ≠ c) : b.1 + b.2 ≤ c.1 ∨ c.1 + c.2 ≤ b.1 := by
  have haddr : b.1 ≠ c.1 := fun heq => hne (List.inj_on_of_nodup_map h.distinct hb hc heq)
  obtain ⟨r, hr, hrb, hsb⟩ := h.owner b hb
  obtain ⟨q, hq, hqc, hsc⟩ := h.owner c hc
  by_cases hrq : r = q
  · subst hrq
    have := IsBlock.apart hrb hqc haddr
    omega
  · have h1 := IsBlock.bounds (h.page r hr).typed hrb
    have h2 := IsBlock.bounds (h.page q hq).typed hqc
    have hpages : (refs r).pageaddr ≠ (refs q).pageaddr := fun heq => hrq (h.apart r hr q hq heq)
    unfold Pageref.pageaddr pageSize at *
    omega

theorem SameBody.pageaddr (h : SameBody refs refs') (r : ℕ) : (refs' r).pageaddr = (refs r).pageaddr := by
  rw [Pageref.pageaddr, Pageref.pageaddr, (h r).1]

theorem SameBody.isBlock (h : SameBody refs refs') {r a : ℕ} : (refs' r).IsBlock a ↔ (refs r).IsBlock a := by
  simp only [Pageref.IsBlock, Pageref.size, Pageref.blocktype, Pageref.pageaddr, (h r).1]

theorem SameBody.size (h : SameBody refs refs') (r : ℕ) : (refs' r).size = (refs r).size := by
  rw [Pageref.size, Pageref.size, Pageref.blocktype, Pageref.blocktype, (h r).1]

theorem SameBody.page (h : SameBody refs refs') {l f : List ℕ} (hp : Page mem l (refs r) f) :
    Page mem l (refs' r) f where
  typed := by
    rw [Pageref.blocktype, (h r).1]
    exact hp.typed
  addr := by
    rw [h.pageaddr]
    exact hp.addr
  path := by
    rw [Pageref.head, (h r).2.1, h.pageaddr]
    exact hp.path
  length := by
    rw [(h r).2.2]
    exact hp.length
  block a ha := h.isBlock.mpr (hp.block a ha)
  split a ha := hp.split a (h.isBlock.mp ha)

theorem Blocks.congr (h : Blocks refs mem live all free) (hs : SameBody refs refs') :
    Blocks refs' mem live all free where
  page r hr := hs.page (h.page r hr)
  apart r hr q hq heq := by
    rw [hs.pageaddr, hs.pageaddr] at heq
    exact h.apart r hr q hq heq
  owner b hb := by
    obtain ⟨r, hr, hrb, hsz⟩ := h.owner b hb
    exact ⟨r, hr, hs.isBlock.mpr hrb, by rwa [hs.size]⟩
  distinct := h.distinct

theorem update_pab {pr : Pageref} (hpab : pr.pageaddrAndBlocktype = (refs r).pageaddrAndBlocktype) (q : ℕ) :
    (update refs r pr q).pageaddrAndBlocktype = (refs q).pageaddrAndBlocktype := by
  by_cases hq : q = r
  · rw [hq, update_self, hpab]
  · rw [update_of_ne hq]

/-- One page changes; the others keep their free lists. -/
theorem Blocks.change {live' : List (ℕ × ℕ)} {pr : Pageref} {f : List ℕ} (h : Blocks refs mem live all free)
    (hr : r ∈ all) (hpab : pr.pageaddrAndBlocktype = (refs r).pageaddrAndBlocktype)
    (hpage : Page mem' (live'.map Prod.fst) pr f)
    (hmem : ∀ q ∈ all, q ≠ r → ∀ a ∈ free q, mem' a = mem a)
    (hlive : ∀ q ∈ all, q ≠ r → ∀ a, (refs q).IsBlock a → (a ∈ live'.map Prod.fst ↔ a ∈ live.map Prod.fst))
    (hnew : ∀ b ∈ live', b ∈ live ∨ (refs r).IsBlock b.1 ∧ b.2 ≤ (refs r).size)
    (hnd : (live'.map Prod.fst).Nodup) :
    Blocks (update refs r pr) mem' live' all (update free r f) := by
  have hpa := update_pab hpab
  have haddr : ∀ q, (update refs r pr q).pageaddr = (refs q).pageaddr := by
    intro q
    rw [Pageref.pageaddr, Pageref.pageaddr, hpa]
  have hblock : ∀ q a, (update refs r pr q).IsBlock a ↔ (refs q).IsBlock a := by
    intro q a
    simp only [Pageref.IsBlock, Pageref.size, Pageref.blocktype, Pageref.pageaddr, hpa]
  have hsize : ∀ q, (update refs r pr q).size = (refs q).size := by
    intro q
    rw [Pageref.size, Pageref.size, Pageref.blocktype, Pageref.blocktype, hpa]
  constructor
  · intro q hq
    by_cases hqr : q = r
    · subst hqr
      rw [update_self, update_self]
      exact hpage
    · rw [update_of_ne hqr, update_of_ne hqr]
      exact (h.page q hq).frame (hmem q hq hqr) (hlive q hq hqr)
  · intro q hq p hp heq
    rw [haddr, haddr] at heq
    exact h.apart q hq p hp heq
  · intro b hb
    obtain hb | ⟨hblk, hsz⟩ := hnew b hb
    · obtain ⟨q, hq, hqb, hsz⟩ := h.owner b hb
      exact ⟨q, hq, (hblock q b.1).mpr hqb, by rwa [hsize]⟩
    · exact ⟨r, hr, (hblock r b.1).mpr hblk, by rwa [hsize]⟩
  · exact hnd

theorem Blocks.pop {a sz : ℕ} {f : List ℕ} (h : Blocks refs mem live all free) (hr : r ∈ all)
    (hfree : free r = a::f) (hsz : sz ≤ (refs r).size) :
    Blocks (update refs r ((refs r).popped f)) mem ((a, sz)::live) all (update free r f) := by
  have hpage := h.page r hr
  rw [hfree] at hpage
  have hblk := hpage.block a List.mem_cons_self
  have hnot : a ∉ live.map Prod.fst := (hpage.split a hblk).mp List.mem_cons_self
  refine h.change hr rfl hpage.pop (fun _ _ _ _ _ => rfl) ?_ ?_ ?_
  · intro q hq hqr c hc
    have hca : c ≠ a := by
      rintro rfl
      exact hqr (h.owner_unique hq hr hc hblk)
    simp [hca]
  · intro b hb
    obtain rfl | hb := List.mem_cons.mp hb
    · exact .inr ⟨hblk, hsz⟩
    · exact .inl hb
  · exact List.nodup_cons.mpr ⟨hnot, h.distinct⟩

theorem mem_map_filter {a c : ℕ} :
    c ∈ (live.filter (fun b => decide (b.1 ≠ a))).map Prod.fst ↔ c ∈ live.map Prod.fst ∧ c ≠ a := by
  simp only [List.mem_map, List.mem_filter, decide_eq_true_eq]
  constructor
  · rintro ⟨b, ⟨hb, hne⟩, rfl⟩
    exact ⟨⟨b, hb, rfl⟩, hne⟩
  · rintro ⟨⟨b, hb, rfl⟩, hne⟩
    exact ⟨b, ⟨hb, hne⟩, rfl⟩

theorem Blocks.push {a : ℕ} (h : Blocks refs mem live all free) (hr : r ∈ all) (ha : (refs r).IsBlock a)
    (hlive : a ∈ live.map Prod.fst) (hnext : pointer (mem' a) = (refs r).head)
    (hmem : ∀ x, x < a ∨ a + (refs r).size ≤ x → mem' x = mem x) :
    Blocks (update refs r { refs r with freelistOffset := a - (refs r).pageaddr, nfree := (refs r).nfree + 1 })
      mem' (live.filter (fun b => decide (b.1 ≠ a))) all (update free r (a::free r)) := by
  have hpage := h.page r hr
  have hout : ∀ q ∈ all, q ≠ r → ∀ c, (refs q).IsBlock c → c ≠ a := by
    rintro q hq hqr c hc rfl
    exact hqr (h.owner_unique hq hr hc ha)
  refine h.change hr rfl (hpage.push ha hlive hnext ?_ (fun b => mem_map_filter)) ?_ ?_ ?_ ?_
  · intro b hb
    have hne : b ≠ a := by
      rintro rfl
      exact (hpage.split b ha).mp hb hlive
    have hsize := (sizeOf_facts hpage.typed).1
    have := IsBlock.apart (hpage.block b hb) ha hne
    refine hmem b ?_
    simp only [Pageref.size] at *
    omega
  · intro q hq hqr c hc
    have hcq := (h.page q hq).block c hc
    refine hmem c ?_
    by_contra hin
    exact h.ne_of_ne hr hq hqr ha hcq (by omega) (by omega) rfl
  · intro q hq hqr c hc
    rw [mem_map_filter]
    exact and_iff_left (hout q hq hqr c hc)
  · intro b hb
    exact .inl (List.mem_of_mem_filter hb)
  · exact h.distinct.sublist (List.filter_sublist.map _)

/-- A page none of whose blocks is live is no longer needed. -/
theorem Blocks.drop (h : Blocks refs mem live all free) (hnone : ∀ b ∈ live, ¬(refs r).IsBlock b.1) :
    Blocks refs mem live (all.erase r) free where
  page q hq := h.page q (List.mem_of_mem_erase hq)
  apart q hq p hp := h.apart q (List.mem_of_mem_erase hq) p (List.mem_of_mem_erase hp)
  owner b hb := by
    obtain ⟨q, hq, hqb, hsz⟩ := h.owner b hb
    refine ⟨q, (List.mem_erase_of_ne ?_).mpr hq, hqb, hsz⟩
    rintro rfl
    exact hnone b hb hqb
  distinct := h.distinct

theorem Blocks.add {pr : Pageref} (h : Blocks refs mem live all free) (hr : r ∉ all)
    (hk : pr.blocktype < nsizes) (hpos : 0 < pr.pageaddr) (haddr : pr.pageaddr + pageSize ≤ 2 ^ 32)
    (hn : pr.nfree = pageSize / pr.size) (hoff : pr.freelistOffset = (pageSize / pr.size - 1) * pr.size)
    (hapart : ∀ q ∈ all, (refs q).pageaddr ≠ pr.pageaddr) :
    Blocks (update refs r pr) (linkBlocks mem pr.pageaddr pr.size (pageSize / pr.size)) live (r::all)
      (update free r (descending pr.pageaddr pr.size (pageSize / pr.size))) := by
  have hother : ∀ q ∈ all, q ≠ r := by
    rintro q hq rfl
    exact hr hq
  have hnot : ∀ q ∈ all, ∀ a, (refs q).IsBlock a → ¬pr.IsBlock a := by
    intro q hq a hqa ha
    refine hapart q hq ?_
    rw [← isBlock_pageaddr (h.page q hq).typed hqa, ← isBlock_pageaddr hk ha]
  have hlive : ∀ a, pr.IsBlock a → a ∉ live.map Prod.fst := by
    intro a ha hl
    obtain ⟨b, hb, rfl⟩ := List.mem_map.mp hl
    obtain ⟨q, hq, hqb, -⟩ := h.owner b hb
    exact hnot q hq b.1 hqb ha
  constructor
  · intro q hq
    obtain rfl | hq := List.mem_cons.mp hq
    · rw [update_self, update_self]
      exact Page.fresh hk hpos haddr hn hoff hlive
    · rw [update_of_ne (hother q hq), update_of_ne (hother q hq)]
      refine (h.page q hq).frame ?_ (fun _ _ => Iff.rfl)
      intro a ha
      refine linkBlocks_of_forall_ne ?_
      rintro i hi rfl
      exact hnot q hq _ ((h.page q hq).block _ ha) ⟨i, hi, rfl⟩
  · intro q hq p hp heq
    obtain hqr | hqa := List.mem_cons.mp hq <;> obtain hpr | hpa := List.mem_cons.mp hp
    · exact hqr.trans hpr.symm
    · rw [hqr, update_self, update_of_ne (hother p hpa)] at heq
      exact absurd heq.symm (hapart p hpa)
    · rw [hpr, update_self, update_of_ne (hother q hqa)] at heq
      exact absurd heq (hapart q hqa)
    · rw [update_of_ne (hother q hqa), update_of_ne (hother p hpa)] at heq
      exact h.apart q hqa p hpa heq
  · intro b hb
    obtain ⟨q, hq, hqb, hsz⟩ := h.owner b hb
    refine ⟨q, List.mem_cons_of_mem _ hq, ?_⟩
    rw [update_of_ne (hother q hq)]
    exact ⟨hqb, hsz⟩
  · exact h.distinct

/-- A store to a place that is on no free list. -/
theorem Blocks.write {a v : ℕ} (h : Blocks refs mem live all free) (hout : ∀ q ∈ all, ∀ c ∈ free q, c ≠ a) :
    Blocks refs (update mem a v) live all free where
  page q hq := (h.page q hq).frame (fun c hc => update_of_ne (hout q hq c hc) _ _) (fun _ _ => Iff.rfl)
  apart := h.apart
  owner := h.owner
  distinct := h.distinct

/-- No place of a live block is on a free list. -/
theorem Blocks.ne_of_live {a c q : ℕ} {b : ℕ × ℕ} (h : Blocks refs mem live all free) (hb : b ∈ live) (hlo : b.1 ≤ a)
    (hhi : a < b.1 + b.2) (hq : q ∈ all) (hc : c ∈ free q) : c ≠ a := by
  obtain ⟨r, hr, hrb, hsz⟩ := h.owner b hb
  have hqc := (h.page q hq).block c hc
  by_cases hqr : q = r
  · subst hqr
    have hcb : c ≠ b.1 := by
      rintro rfl
      exact ((h.page q hq).split _ hqc).mp hc (List.mem_map_of_mem hb)
    have := IsBlock.apart hqc hrb hcb
    have := (sizeOf_facts (h.page q hq).typed).1
    simp only [Pageref.size] at *
    omega
  · exact h.ne_of_ne hr hq hqr hrb hqc hlo (by omega)

end Blocks

end OS161.Kmalloc
