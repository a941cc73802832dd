import OS161.KmallocSteps

/-!
# Runs of the subpage allocator

However the sections of any number of threads follow upon each other, the
lists, the free lists and the live blocks stay in order, and a page is given
up by the call that frees the last of its live blocks and by no other.
-/

set_option autoImplicit false

namespace OS161.Kmalloc

open Function Links Placement Runs PhysicalMemory

variable {T : Type*} [DecidableEq T] {s : Heap T} {t : T} {all : List ℕ} {same free : ℕ → List ℕ} {r : ℕ}

/--
What callers and `alloc_kpages` keep to: sizes are those of subpage requests,
what is freed is live, stores go to live blocks, and a page that is got is one
of kseg0 that is not already held.
-/
def Allowed : Act T → Heap T → Prop
  | .subpageKmalloc _ sz, _ => sz < largestSubpageSize
  | .allocKpages _ va, s =>
    va = 0 ∨ va % pageSize = 0 ∧ kseg0 ≤ va ∧ va + pageSize ≤ kseg1 ∧ va ∉ s.held
  | .resume _, _ => True
  | .subpageKfree _ ptr, s => ptr ∈ s.live.map Prod.fst
  | .store a _, s => ∃ b ∈ s.live, b.1 ≤ a ∧ a < b.1 + b.2

/-- The allocator at boot: no page is managed; what memory holds does not matter. -/
def initial (refs : ℕ → Pageref) (mem : ℕ → ℕ) : Heap T where
  refs := refs
  mem := mem
  kheaproots := fun _ => { page := 0, pagerefsInuse := fun _ => false, numinuse := 0 }
  sizebases := fun _ => none
  allbase := none
  threads := fun _ => .idle
  held := []
  live := []

/-- The pages held once `alloc_kpages` has returned to the section. -/
def Act.gets : Act T → List ℕ
  | .allocKpages _ va => if va = 0 then [] else [va]
  | _ => []

/-- What one section does to the managed pages, to the pages held and, if it frees a block, to the live ones. -/
structure Effect (a : Act T) (s : Heap T) (all : List ℕ) (s' : Heap T) : Prop where
  pages : (∃ all' same' free', Rep s' all' same' free' ∧
      ∀ r ∈ all, r ∈ all' ∧ (s'.refs r).pageaddr = (s.refs r).pageaddr) ∨
    ∃ t ptr r, a = .subpageKfree t ptr ∧ Releases s all t ptr r s'
  held : ∀ q ∈ s'.held, q ∈ a.gets ++ s.held
  live : ∀ t ptr, a = .subpageKfree t ptr → s'.live = s.live.filter (fun b => decide (b.1 ≠ ptr))

omit [DecidableEq T] in
theorem keeps_effect {a : Act T} {x : Except Stop (Heap T)} (ha : ∀ t ptr, a ≠ .subpageKfree t ptr)
    (h : Ensures Halts (Keeps s all) x) : Ensures Halts (Effect a s all) x := by
  cases x with
  | ok s' => exact ⟨.inl h.2, fun q hq => List.mem_append_right _ (h.1 q hq), fun t ptr heq => absurd heq (ha t ptr)⟩
  | error e => exact h

/-- Each section keeps all managed pages, unless it frees the last live block of one. -/
theorem step_spec {a : Act T} (h : Rep s all same free) (hg : Allowed a s) :
    Ensures Halts (Effect a s all) (step a s) := by
  cases a with
  | subpageKmalloc t sz =>
    simp only [step]
    by_cases ht : s.threads t = .idle
    · rw [if_pos ht]
      exact keeps_effect (by simp) (ensures_of_exists (subpageKmalloc_keeps h ht hg))
    · rw [if_neg ht]
      exact .inl rfl
  | allocKpages t va =>
    have hfresh : va = 0 ∨ va % pageSize = 0 ∧ 0 < va ∧ va + pageSize ≤ 2 ^ 32 ∧ va ∉ s.held := by
      obtain hz | ⟨hmod, hlo, hhi, hnew⟩ := hg
      · exact .inl hz
      · unfold kseg0 at hlo
        unfold kseg1 at hhi
        exact .inr ⟨hmod, by omega, by omega, hnew⟩
    have hkeeps := gotKpages_keeps (t := t) h hfresh
    change Ensures Halts _ (s.gotKpages t va)
    cases hx : s.gotKpages t va with
    | error e =>
      rw [hx] at hkeeps
      exact hkeeps
    | ok s' =>
      rw [hx] at hkeeps
      refine ⟨.inl hkeeps.2, ?_, by simp⟩
      intro q hq
      have hq' := hkeeps.1 q hq
      by_cases hz : va = 0
      · simpa [Act.gets, hz] using hq'
      · simpa [Act.gets, hz] using hq'
  | resume t => exact keeps_effect (by simp) (resume_keeps h)
  | subpageKfree t ptr =>
    simp only [step]
    by_cases ht : s.threads t = .idle
    · rw [if_pos ht]
      have hfree := subpageKfree_spec h ht hg
      cases hx : s.subpageKfree t ptr with
      | error e =>
        rw [hx] at hfree
        exact hfree
      | ok x =>
        rw [hx] at hfree
        obtain ⟨s', rfl, hlive, hpages⟩ := hfree
        refine ⟨hpages.imp And.right ?_, ?_, ?_⟩
        · rintro ⟨r, hrel⟩
          exact ⟨t, ptr, r, rfl, hrel⟩
        · intro q hq
          refine List.mem_append_right _ ?_
          obtain hk | ⟨r, hrel⟩ := hpages
          · exact hk.1 q hq
          · exact hrel.held ▸ hq
        · rintro u q ⟨⟩
          exact hlive
    · rw [if_neg ht]
      exact .inl rfl
  | store a v =>
    obtain ⟨b, hb, hlo, hhi⟩ := hg
    refine keeps_effect (by simp) (x := .ok _) ?_
    exact Rep.keeps ⟨h.lists, h.blocks.write (fun q hq c hc => h.blocks.ne_of_live hb hlo hhi hq hc), h.used, h.places, h.slots, h.requests⟩ rfl (fun _ hq => hq)

theorem step_inv {a : Act T} (h : Inv s) (hg : Allowed a s) : Ensures Halts Inv (step a s) := by
  obtain ⟨all, same, free, hrep⟩ := h
  have hspec := step_spec hrep hg
  cases hs : step a s with
  | error e =>
    rw [hs] at hspec
    exact hspec
  | ok s' =>
    rw [hs] at hspec
    obtain ⟨all', same', free', hrep', -⟩ | ⟨t, ptr, r, -, hrel⟩ := hspec.pages
    · exact ⟨all', same', free', hrep'⟩
    · obtain ⟨same', free', hrep'⟩ := hrel.rep
      exact ⟨_, same', free', hrep'⟩

omit [DecidableEq T] in
theorem initial_inv (refs : ℕ → Pageref) (mem : ℕ → ℕ) : Inv (initial (T := T) refs mem) := by
  refine ⟨[], fun _ => [], fun _ => [], ⟨rfl, fun _ _ => rfl, by simp, by simp⟩, ⟨by simp, by simp, ?_, ?_⟩,
    by simp, ⟨⟨?_, ?_, ?_⟩, List.nodup_nil, ?_⟩, ⟨by simp, ?_, ?_, ?_⟩, ⟨?_, ?_⟩⟩
  · rintro b ⟨⟩
  · exact List.nodup_nil
  · intro x
    cases x <;> simp [owned, initial, Phase.page, Phase.extra]
  · intro x y t hx
    cases x <;> simp [owned, initial, Phase.page, Phase.extra] at hx
  · intro q
    constructor
    · rintro ⟨⟩
    · rintro ⟨x, hx⟩
      cases x <;> simp [owned, initial, Phase.page, Phase.extra] at hx
  · rintro q ⟨⟩
  · rintro u w j ⟨⟩
  · rintro u v w j ⟨⟩
  · intro w _
    simp [initial]
  · rintro u k sz ⟨⟩
  · rintro u w ⟨⟩

theorem run_inv {refs : ℕ → Pageref} {mem : ℕ → ℕ} {as : List (Act T)}
    (hg : Guarded step Allowed as (initial refs mem)) (hr : run step as (initial refs mem) = .ok s) : Inv s := by
  refine guarded_invariant ?_ hg (initial_inv refs mem) hr
  intro a u u' hi ha hs
  have hstep := step_inv hi ha
  rwa [hs] at hstep

/-- An address is on a page. -/
def OnPage (p a : ℕ) : Prop := p ≤ a ∧ a < p + pageSize

/-- A page is managed if a pageref on `allbase` is for it. -/
def Managed (s : Heap T) (p : ℕ) : Prop :=
  ∃ all, Path (fun r => (s.refs r).nextAll) s.allbase all ∧ ∃ r ∈ all, (s.refs r).pageaddr = p

/-- The lists, the free lists and the live blocks are in order. -/
structure Consistent (s : Heap T) (all : List ℕ) (same free : ℕ → List ℕ) : Prop where
  allPath : Path (fun r => (s.refs r).nextAll) s.allbase all
  samePath : ∀ k < nsizes, Path (fun r => (s.refs r).nextSamesize) (s.sizebases k) (same k)
  once : ∀ r ∈ all, (s.refs r).blocktype < nsizes ∧ all.count r = 1 ∧
    ∀ k < nsizes, (same k).count r = if k = (s.refs r).blocktype then 1 else 0
  only : ∀ k < nsizes, ∀ r ∈ same k, r ∈ all
  freePath : ∀ r ∈ all, Path (fun a => pointer (s.mem a)) (s.refs r).head (free r) ∧ (free r).Nodup ∧
    (free r).length = (s.refs r).nfree
  offsets : ∀ r ∈ all, ∀ a ∈ free r, OnPage (s.refs r).pageaddr a ∧
    (a - (s.refs r).pageaddr) % sizeOf (s.refs r).blocktype = 0
  fits : ∀ b ∈ s.live, ∃ r ∈ all, (s.refs r).IsBlock b.1 ∧ b.2 ≤ sizeOf (s.refs r).blocktype
  distinct : (s.live.map Prod.fst).Nodup
  disjoint : ∀ b ∈ s.live, ∀ c ∈ s.live, b ≠ c → b.1 + b.2 ≤ c.1 ∨ c.1 + c.2 ≤ b.1
  apart : ∀ b ∈ s.live, ∀ r ∈ all, ∀ a ∈ free r,
    b.1 ≠ a ∧ (b.1 + b.2 ≤ a ∨ a + sizeOf (s.refs r).blocktype ≤ b.1)

section

omit [DecidableEq T]

theorem Rep.consistent (h : Rep s all same free) : Consistent s all same free where
  allPath := h.lists.allPath
  samePath := h.lists.samePath
  once r hr := by
    refine ⟨h.lists.typed r hr, List.count_eq_one_of_mem h.lists.allPath.nodup hr, ?_⟩
    intro k hk
    by_cases hkr : k = (s.refs r).blocktype
    · rw [if_pos hkr]
      exact List.count_eq_one_of_mem (h.lists.samePath k hk).nodup ((h.lists.mem_same k hk r).mpr ⟨hr, hkr.symm⟩)
    · rw [if_neg hkr]
      exact List.count_eq_zero.mpr (fun hin => hkr ((h.lists.mem_same k hk r).mp hin).2.symm)
  only k hk r hr := ((h.lists.mem_same k hk r).mp hr).1
  freePath r hr := ⟨(h.blocks.page r hr).path, (h.blocks.page r hr).path.nodup, (h.blocks.page r hr).length⟩
  offsets r hr a ha := by
    obtain ⟨hlo, hhi, hmod⟩ := (isBlock_iff (h.lists.typed r hr)).mp ((h.blocks.page r hr).block a ha)
    exact ⟨⟨hlo, hhi⟩, hmod⟩
  fits := h.blocks.owner
  distinct := h.blocks.distinct
  disjoint b hb c hc hne := h.blocks.disjoint hb hc hne
  apart b hb r hr a ha := by
    obtain ⟨q, hq, hqb, hsz⟩ := h.blocks.owner b hb
    have hra := (h.blocks.page r hr).block a ha
    have hqt := IsBlock.bounds (h.lists.typed q hq) hqb
    have hrt := IsBlock.bounds (h.lists.typed r hr) hra
    have hne : b.1 ≠ a := by
      rintro rfl
      exact ((h.blocks.page r hr).split _ hra).mp ha (List.mem_map_of_mem hb)
    refine ⟨hne, ?_⟩
    by_cases hqr : q = r
    · subst hqr
      have := IsBlock.apart hqb hra hne
      simp only [Pageref.size] at *
      omega
    · have hpages : (s.refs q).pageaddr ≠ (s.refs r).pageaddr := fun heq => hqr (h.blocks.apart q hq r hr heq)
      simp only [Pageref.size] at *
      unfold Pageref.pageaddr pageSize at *
      omega

theorem Rep.managed_iff (h : Rep s all same free) {q : ℕ} : Managed s q ↔ ∃ r ∈ all, (s.refs r).pageaddr = q := by
  constructor
  · rintro ⟨l, hl, r, hr, hq⟩
    rw [hl.unique h.lists.allPath] at hr
    exact ⟨r, hr, hq⟩
  · rintro ⟨r, hr, hq⟩
    exact ⟨all, h.lists.allPath, r, hr, hq⟩

theorem Rep.held_of_managed (h : Rep s all same free) {q : ℕ} (hq : Managed s q) :
    q ∈ s.held ∧ ∃ b ∈ s.live, OnPage q b.1 := by
  obtain ⟨r, hr, rfl⟩ := h.managed_iff.mp hq
  refine ⟨(h.places.exact.covers _).mpr ⟨.ref r, by simp [owned, hr]⟩, ?_⟩
  obtain ⟨a, ha, hblk⟩ := (h.blocks.page r hr).exists_live (h.used r hr)
  obtain ⟨b, hb, rfl⟩ := List.mem_map.mp ha
  obtain ⟨hlo, hhi, -⟩ := (isBlock_iff (h.lists.typed r hr)).mp hblk
  exact ⟨b, hb, hlo, hhi⟩

end

section Held

omit [DecidableEq T]

/-- Every live block is on a page that is held. -/
theorem Rep.live_held (h : Rep s all same free) {b : ℕ × ℕ} (hb : b ∈ s.live) :
    ∃ q ∈ s.held, q ≤ b.1 ∧ b.1 + b.2 ≤ q + pageSize := by
  obtain ⟨r, hr, hblk, hsz⟩ := h.blocks.owner b hb
  have hbounds := IsBlock.bounds (h.lists.typed r hr) hblk
  exact ⟨_, (h.held_of_managed (h.managed_iff.mpr ⟨r, hr, rfl⟩)).1, hbounds.1, by omega⟩

/-- A store that is on no page held is not seen. -/
theorem Rep.write (h : Rep s all same free) {a v : ℕ} (hout : ∀ q ∈ s.held, ¬OnPage q a) :
    Rep { s with mem := update s.mem a v } all same free where
  lists := h.lists
  blocks := by
    refine h.blocks.write ?_
    rintro r hr c hc rfl
    obtain ⟨hlo, hhi, -⟩ := (isBlock_iff (h.lists.typed r hr)).mp ((h.blocks.page r hr).block c hc)
    exact hout _ (h.held_of_managed (h.managed_iff.mpr ⟨r, hr, rfl⟩)).1 ⟨hlo, hhi⟩
  used := h.used
  places := h.places
  slots := h.slots
  requests := h.requests

/-- A pointer that is on no page held is not taken for that of a block. -/
theorem Rep.subpageKfree_none [DecidableEq T] (h : Rep s all same free) {ptr : ℕ} (hout : ∀ q ∈ s.held, ¬OnPage q ptr) :
    s.subpageKfree t ptr = .ok none := by
  obtain ⟨x, hfind, hsome, -⟩ := findPage_ok h.lists.allPath h.lists.typed (Nat.lt_succ_of_le h.length_le)
  cases x with
  | none =>
    unfold Heap.subpageKfree
    rw [hfind]
  | some r =>
    obtain ⟨hr, hon⟩ := hsome r rfl
    exact absurd hon (hout _ (h.held_of_managed (h.managed_iff.mpr ⟨r, hr, rfl⟩)).1)

end Held

instance decidableAllowed : ∀ (a : Act T) (s : Heap T), Decidable (Allowed a s)
  | .subpageKmalloc _ sz, _ => inferInstanceAs (Decidable (sz < largestSubpageSize))
  | .allocKpages _ va, s =>
    inferInstanceAs (Decidable (va = 0 ∨ va % pageSize = 0 ∧ kseg0 ≤ va ∧ va + pageSize ≤ kseg1 ∧ va ∉ s.held))
  | .resume _, _ => isTrue trivial
  | .subpageKfree _ ptr, s => inferInstanceAs (Decidable (ptr ∈ s.live.map Prod.fst))
  | .store a _, s => inferInstanceAs (Decidable (∃ b ∈ s.live, b.1 ≤ a ∧ a < b.1 + b.2))

end OS161.Kmalloc
