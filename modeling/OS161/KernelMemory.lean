import OS161.KmallocRuns
import OS161.Regions

/-!
# Kernel memory

`kmalloc` serves what is too large for a block with whole pages, and the pages
of either kind come from `ram_stealmem`. The sizes are what callers ask for:
`read_stdin` and `write_std` pass on the length that a user program gave, any
number of 32 bits. As long as rounding a size up to pages and moving
`firstpaddr` by as much does not leave 32 bits, all blocks are apart and lie in
the memory handed out; the first request that does leave them breaks it.
-/

set_option autoImplicit false

namespace OS161.KernelMemory

open Function Links Kmalloc PhysicalMemory Regions Runs

/-- The subpage allocator, what is left of RAM, and the live blocks that have whole pages. -/
structure Memory (T : Type*) where
  heap : Heap T
  ram : Ram
  large : List (ℕ × ℕ)

/-- Calls of any number of threads; `allocKpages` and `resume` take a call in the subpage allocator further. -/
inductive Call (T : Type*) where
  | kmalloc (t : T) (sz : ℕ)
  | allocKpages (t : T)
  | resume (t : T)
  | kfree (t : T) (ptr : ℕ)
  | store (a v : ℕ)

variable {T : Type*} [DecidableEq T]

/-- All blocks that have been returned and not yet freed. -/
def Memory.blocks (s : Memory T) : List (ℕ × ℕ) := s.heap.live ++ s.large

def Memory.subpage (s : Memory T) (a : Act T) : Except Stop (Memory T) :=
  match Kmalloc.step a s.heap with
  | .ok heap => .ok { s with heap := heap }
  | .error e => .error e

/-- `(sz + PAGE_SIZE - 1)/PAGE_SIZE`, in 32 bits. -/
def npages (sz : ℕ) : ℕ := (sz + pageSize - 1) % 2 ^ 32 / pageSize

def Memory.kmalloc (s : Memory T) (t : T) (sz : ℕ) : Except Stop (Memory T) :=
  if largestSubpageSize ≤ sz then
    if s.heap.threads t = .idle then
      let (address, ram) := s.ram.allocKpages (npages sz)
      if address = 0 then .ok { s with ram := ram }
      else if address % pageSize = 0 then .ok { s with ram := ram, large := (address, sz)::s.large }
      else .error .assertion
    else .error .notReady
  else s.subpage (.subpageKmalloc t sz)

/-- `alloc_kpages(1)`, called by the subpage allocator. -/
def Memory.allocKpages (s : Memory T) (t : T) : Except Stop (Memory T) :=
  let (va, ram) := s.ram.allocKpages 1
  { s with ram := ram }.subpage (.allocKpages t va)

/-- What is on no page of the subpage allocator is taken for whole pages; `free_kpages` leaks them. -/
def Memory.kfree (s : Memory T) (t : T) (ptr : ℕ) : Except Stop (Memory T) :=
  if ptr = 0 then .ok s
  else if s.heap.threads t = .idle then
    match s.heap.subpageKfree t ptr with
    | .error e => .error e
    | .ok (some heap) => .ok { s with heap := heap }
    | .ok none =>
      if ptr % pageSize = 0 then .ok { s with large := s.large.filter (fun b => decide (b.1 ≠ ptr)) }
      else .error .assertion
  else .error .notReady

def step : Call T → Memory T → Except Stop (Memory T)
  | .kmalloc t sz, s => s.kmalloc t sz
  | .allocKpages t, s => s.allocKpages t
  | .resume t, s => s.subpage (.resume t)
  | .kfree t ptr, s => s.kfree t ptr
  | .store a v, s => s.subpage (.store a v)

/-- Sizes have 32 bits; what is freed and written to is live. -/
def Proper : Call T → Memory T → Prop
  | .kmalloc _ sz, _ => sz < 2 ^ 32
  | .kfree _ ptr, s => ptr = 0 ∨ ptr ∈ s.blocks.map Prod.fst
  | .store a _, s => ∃ b ∈ s.blocks, Inside b a
  | .allocKpages _, _ => True
  | .resume _, _ => True

/-- Rounded up to pages, the size takes `firstpaddr` nowhere beyond 32 bits. -/
def Fits : Call T → Memory T → Prop
  | .kmalloc _ sz, s => largestSubpageSize ≤ sz → s.ram.NoWrap ((sz + pageSize - 1) / pageSize)
  | .allocKpages _, _ => True
  | .resume _, _ => True
  | .kfree _ _, _ => True
  | .store _ _, _ => True

/-- All live blocks are apart and in the part of memory that has been handed out, which is in RAM. -/
def Sound (first : ℕ) (s : Memory T) : Prop :=
  s.ram.firstpaddr ≤ s.ram.lastpaddr ∧ Packed (kseg0 + first) (kseg0 + s.ram.firstpaddr) s.blocks

def boot (first last : ℕ) (refs : ℕ → Pageref) (mem : ℕ → ℕ) : Memory T where
  heap := initial refs mem
  ram := ⟨first, last⟩
  large := []

/-- The pages held by the subpage allocator, as stretches. -/
def heldPages (s : Memory T) : List (ℕ × ℕ) := s.heap.held.map (fun q => (q, pageSize))

structure Inv (first : ℕ) (s : Memory T) : Prop where
  heap : Kmalloc.Inv s.heap
  ram : s.ram.Good
  low : first ≤ s.ram.firstpaddr
  packed : Packed (kseg0 + first) (kseg0 + s.ram.firstpaddr) (heldPages s ++ s.large)
  aligned : ∀ b ∈ s.large, b.1 % pageSize = 0
  nonempty : ∀ b ∈ s.large, 0 < b.2

variable {s s' : Memory T} {first : ℕ} {t : T} {sz ptr : ℕ}

section

omit [DecidableEq T]

theorem mem_heldPages {q : ℕ} (h : q ∈ s.heap.held) : (q, pageSize) ∈ heldPages s := List.mem_map_of_mem h

/-- Whole pages are apart from the pages of the subpage allocator. -/
theorem Inv.large_apart (h : Inv first s) {b : ℕ × ℕ} {q : ℕ} (hb : b ∈ s.large) (hq : q ∈ s.heap.held) :
    Apart (q, pageSize) b :=
  (List.pairwise_append.mp h.packed.apart).2.2 _ (mem_heldPages hq) b hb

theorem Inv.sound (h : Inv first s) : Sound first s := by
  obtain ⟨all, same, free, hrep⟩ := h.heap
  refine ⟨h.ram.fits, ?_, ?_⟩
  · intro b hb
    obtain hb | hb := List.mem_append.mp hb
    · obtain ⟨q, hq, hlo, hhi⟩ := hrep.live_held hb
      have := h.packed.within _ (List.mem_append_left _ (mem_heldPages hq))
      simp only at this
      omega
    · exact h.packed.within b (List.mem_append_right _ hb)
  · refine List.pairwise_append.mpr ⟨?_, (List.pairwise_append.mp h.packed.apart).2.1, ?_⟩
    · have hnd : s.heap.live.Nodup := hrep.blocks.distinct.of_map
      exact hnd.pairwise_of_forall_ne (fun b hb c hc hne => hrep.blocks.disjoint hb hc hne)
    · intro b hb c hc
      obtain ⟨q, hq, hlo, hhi⟩ := hrep.live_held hb
      exact (h.large_apart hc hq).mono ⟨hlo, hhi⟩ ⟨le_refl _, le_refl _⟩

end

omit [DecidableEq T] in
theorem boot_inv {last : ℕ} (hram : (Ram.mk first last).Good) (refs : ℕ → Pageref) (mem : ℕ → ℕ) :
    Inv first (boot (T := T) first last refs mem) where
  heap := initial_inv refs mem
  ram := hram
  low := le_refl _
  packed := packed_nil
  aligned := by simp [boot]
  nonempty := by simp [boot]

/-- A section of the subpage allocator that gets at most a page which lies above all that was handed out. -/
theorem subpage_inv {a : Act T} (h : Inv first s) {ram : Ram} (ha : Allowed a s.heap) (hgood : ram.Good)
    (hlow : s.ram.firstpaddr ≤ ram.firstpaddr)
    (hgets : a.gets = [] ∨ a.gets = [kseg0 + s.ram.firstpaddr] ∧ s.ram.firstpaddr + pageSize ≤ ram.firstpaddr) :
    Ensures Halts (Inv first) (Memory.subpage { s with ram := ram } a) := by
  obtain ⟨all, same, free, hrep⟩ := h.heap
  have hspec := step_spec hrep ha
  have hinv := Kmalloc.step_inv ⟨all, same, free, hrep⟩ ha
  unfold Memory.subpage
  cases hs : Kmalloc.step a s.heap with
  | error e =>
    rw [hs] at hspec
    exact hspec
  | ok heap =>
    rw [hs] at hspec hinv
    have hnd : heap.held.Nodup := by
      obtain ⟨_, _, _, hrep'⟩ := hinv
      exact hrep'.places.nodup
    have hsub : (heap.held.map (fun q => (q, pageSize))).Subperm
        ((a.gets.map (fun q => (q, pageSize))) ++ heldPages s) := by
      rw [heldPages, ← List.map_append]
      exact (List.subperm_of_subset hnd hspec.held).map (fun _ _ hq => (Prod.mk.inj hq).1)
    have hall : Packed (kseg0 + first) (kseg0 + ram.firstpaddr)
        ((a.gets.map (fun q => (q, pageSize))) ++ heldPages s ++ s.large) := by
      obtain hnone | ⟨hone, hle⟩ := hgets
      · rw [hnone]
        exact h.packed.raise (by omega)
      · rw [hone]
        exact h.packed.bump (by have := h.low; omega) (by omega)
    exact ⟨hinv, hgood, h.low.trans hlow, hall.subperm (List.Subperm.append hsub (List.Subperm.refl _)), h.aligned,
      h.nonempty⟩

/-- A section that gets no page. -/
theorem subpage_inv_same {a : Act T} (h : Inv first s) (ha : Allowed a s.heap) (hgets : a.gets = []) :
    Ensures Halts (Inv first) (s.subpage a) :=
  subpage_inv h ha h.ram (le_refl _) (.inl hgets)

omit [DecidableEq T] in
theorem npages_of_noWrap (h : s.ram.NoWrap ((sz + pageSize - 1) / pageSize)) :
    npages sz = (sz + pageSize - 1) / pageSize := by
  unfold Ram.NoWrap at h
  unfold npages
  unfold pageSize at *
  omega

theorem allocKpages_inv (h : Inv first s) {x : Except Stop (Memory T)} (hx : s.allocKpages t = x) :
    Ensures Halts (Inv first) x := by
  subst hx
  have hpos : kseg0 ≠ 0 := by decide
  have hspec := allocKpages_spec h.ram (noWrap_one h.ram)
  unfold Memory.allocKpages
  generalize s.ram.allocKpages 1 = x at hspec
  obtain rfl | ⟨rfl, hle⟩ := hspec
  · have hallowed : Allowed (.allocKpages t 0) s.heap := .inl rfl
    have hgets : (Act.allocKpages t 0).gets = [] := rfl
    change Ensures Halts (Inv first) (s.subpage (.allocKpages t 0))
    exact subpage_inv_same h hallowed hgets
  · refine subpage_inv h (.inr ⟨?_, Nat.le_add_right _ _, ?_, ?_⟩) (h.ram.advance hle) (Nat.le_add_right _ _) (.inr ⟨?_, ?_⟩)
    · have := h.ram.aligned
      unfold kseg0
      unfold pageSize at *
      omega
    · have := h.ram.small
      unfold maxRam at this
      unfold kseg0 kseg1
      unfold pageSize at *
      omega
    · intro hin
      have := h.packed.within _ (List.mem_append_left _ (mem_heldPages hin))
      unfold pageSize at this
      omega
    · unfold kseg0 at hpos
      simp [Act.gets, kseg0]
    · simp

theorem kmalloc_inv (h : Inv first s) (hw : largestSubpageSize ≤ sz → s.ram.NoWrap ((sz + pageSize - 1) / pageSize)) :
    Ensures Halts (Inv first) (s.kmalloc t sz) := by
  unfold Memory.kmalloc
  by_cases hsz : largestSubpageSize ≤ sz
  · rw [if_pos hsz]
    by_cases ht : s.heap.threads t = .idle
    · have hwrap := hw hsz
      have hn := npages_of_noWrap hwrap
      rw [if_pos ht]
      obtain heq | ⟨heq, hle⟩ := allocKpages_spec (n := npages sz) h.ram (hn ▸ hwrap)
      · rw [heq]
        exact h
      · have haligned : (kseg0 + s.ram.firstpaddr) % pageSize = 0 := by
          have := h.ram.aligned
          unfold kseg0
          unfold pageSize at *
          omega
        have hne : kseg0 + s.ram.firstpaddr ≠ 0 := by
          unfold kseg0
          omega
        have hsize : sz ≤ npages sz * pageSize := by
          rw [hn]
          unfold pageSize
          omega
        rw [heq]
        simp only [if_neg hne, if_pos haligned]
        refine ⟨h.heap, h.ram.advance hle, h.low.trans (Nat.le_add_right _ _), ?_, ?_, ?_⟩
        · have hbump := h.packed.bump (n := sz) (by have := h.low; omega)
            (show kseg0 + s.ram.firstpaddr + sz ≤ kseg0 + (s.ram.firstpaddr + npages sz * pageSize) by omega)
          exact hbump.perm List.perm_middle
        · intro b hb
          obtain rfl | hb := List.mem_cons.mp hb
          · exact haligned
          · exact h.aligned b hb
        · intro b hb
          obtain rfl | hb := List.mem_cons.mp hb
          · exact Nat.lt_of_lt_of_le (by decide) hsz
          · exact h.nonempty b hb
    · rw [if_neg ht]
      exact .inl rfl
  · rw [if_neg hsz]
    exact subpage_inv_same h (show sz < largestSubpageSize by omega) rfl

omit [DecidableEq T] in
/-- No place in whole pages is on a page of the subpage allocator. -/
theorem Inv.not_onPage (h : Inv first s) {b : ℕ × ℕ} {x q : ℕ} (hb : b ∈ s.large) (hx : Inside b x)
    (hq : q ∈ s.heap.held) : ¬OnPage q x :=
  fun hon => (h.large_apart hb hq).not_inside hon hx

theorem kfree_inv (h : Inv first s) (hp : ptr = 0 ∨ ptr ∈ s.blocks.map Prod.fst) :
    Ensures Halts (Inv first) (s.kfree t ptr) := by
  unfold Memory.kfree
  by_cases hz : ptr = 0
  · rw [if_pos hz]
    exact h
  rw [if_neg hz]
  by_cases ht : s.heap.threads t = .idle
  · rw [if_pos ht]
    obtain ⟨b, hb, rfl⟩ := List.mem_map.mp (hp.resolve_left hz)
    obtain hb | hb := List.mem_append.mp hb
    · have hsub := subpage_inv_same (a := .subpageKfree t b.1) h (List.mem_map_of_mem hb) rfl
      unfold Memory.subpage at hsub
      simp only [Kmalloc.step, if_pos ht] at hsub
      obtain ⟨all, same, free, hrep⟩ := h.heap
      have hspec := subpageKfree_spec hrep ht (List.mem_map_of_mem hb)
      cases hx : s.heap.subpageKfree t b.1 with
      | error e =>
        rw [hx] at hsub
        exact hsub
      | ok x =>
        rw [hx] at hsub hspec
        obtain ⟨heap, rfl, -⟩ := hspec
        exact hsub
    · obtain ⟨all, same, free, hrep⟩ := h.heap
      have hin : Inside b b.1 := ⟨le_refl _, Nat.lt_add_of_pos_right (h.nonempty b hb)⟩
      rw [hrep.subpageKfree_none (fun q hq => h.not_onPage hb hin hq)]
      simp only [if_pos (h.aligned b hb)]
      have hsub : (s.large.filter (fun c => decide (c.1 ≠ b.1))).Sublist s.large := List.filter_sublist
      exact ⟨h.heap, h.ram, h.low, h.packed.sublist (hsub.append_left _), fun c hc => h.aligned c (hsub.subset hc),
        fun c hc => h.nonempty c (hsub.subset hc)⟩
  · rw [if_neg ht]
    exact .inl rfl

theorem store_inv {a v : ℕ} (h : Inv first s) (hp : ∃ b ∈ s.blocks, Inside b a) :
    Ensures Halts (Inv first) (s.subpage (.store a v)) := by
  obtain ⟨b, hb, hin⟩ := hp
  obtain hb | hb := List.mem_append.mp hb
  · exact subpage_inv_same h ⟨b, hb, hin⟩ rfl
  · obtain ⟨all, same, free, hrep⟩ := h.heap
    exact ⟨⟨all, same, free, hrep.write (fun q hq => h.not_onPage hb hin hq)⟩, h.ram, h.low, h.packed, h.aligned,
      h.nonempty⟩

theorem step_inv {a : Call T} (h : Inv first s) (hp : Proper a s) (hf : Fits a s) :
    Ensures Halts (Inv first) (step a s) := by
  cases a with
  | kmalloc t sz => exact kmalloc_inv h hf
  | allocKpages t =>
    simp only [step]
    generalize hx : s.allocKpages t = x
    exact allocKpages_inv h hx
  | resume t => exact subpage_inv_same (a := .resume t) h trivial rfl
  | kfree t ptr => exact kfree_inv h hp
  | store a v => exact store_inv h hp

/-- A request that does not fit is granted, with addresses that RAM does not have. -/
theorem kmalloc_unsound (h : Inv first s) (hsz : sz < 2 ^ 32) (hlarge : largestSubpageSize ≤ sz)
    (hw : ¬s.ram.NoWrap ((sz + pageSize - 1) / pageSize)) (hs : s.kmalloc t sz = .ok s') : ¬Sound first s' := by
  have hpos := h.ram.positive
  have hfits := h.ram.fits
  have hsmall := h.ram.small
  have hbase : (s.ram.stealmem (npages sz)).1 = s.ram.firstpaddr := by
    by_cases hround : sz + pageSize - 1 < 2 ^ 32
    · have hn : npages sz = (sz + pageSize - 1) / pageSize := by
        rw [npages, Nat.mod_eq_of_lt hround]
      refine stealmem_wrap h.ram ?_ (hn ▸ hw)
      rw [hn, stealSize]
      refine Nat.mod_eq_of_lt ?_
      have := Nat.div_mul_le_self (sz + pageSize - 1) pageSize
      omega
    · -- the sum that is rounded down is less than a page
      have hn : npages sz = 0 := by
        unfold npages
        unfold pageSize at *
        omega
      have hno : ¬s.ram.lastpaddr < (s.ram.firstpaddr + stealSize 0) % 2 ^ 32 := by
        unfold maxRam at hsmall
        unfold stealSize
        omega
      rw [hn, Ram.stealmem, if_neg hno]
  have haddr : (s.ram.allocKpages (npages sz)).1 = kseg0 + s.ram.firstpaddr := by
    unfold Ram.allocKpages
    simp only [hbase, if_neg (Nat.ne_of_gt hpos), paddrToKvaddr_eq h.ram]
  have hne : kseg0 + s.ram.firstpaddr ≠ 0 := by omega
  unfold Memory.kmalloc at hs
  rw [if_pos hlarge] at hs
  by_cases ht : s.heap.threads t = .idle
  · rw [if_pos ht] at hs
    simp only [haddr, if_neg hne] at hs
    split at hs
    · cases hs
      rintro ⟨hle, hpacked⟩
      have hin := hpacked.within (kseg0 + s.ram.firstpaddr, sz) (List.mem_append_right _ List.mem_cons_self)
      have hlast := allocKpages_lastpaddr s.ram (npages sz)
      unfold Ram.NoWrap at hw
      unfold maxRam at hsmall
      unfold pageSize at *
      simp only at hle hin
      omega
    · cases hs
  · rw [if_neg ht] at hs
    cases hs

/--
As long as every request fits, all blocks are apart and in RAM, in every state
that is reached; and the next step leaves them so exactly if it fits as well.
-/
theorem kmalloc_sound_iff {last : ℕ} (hram : (Ram.mk first last).Good) {refs : ℕ → Pageref} {mem : ℕ → ℕ}
    {as : List (Call T)} (hg : Guarded step (fun a s => Proper a s ∧ Fits a s) as (boot first last refs mem))
    (hr : run step as (boot first last refs mem) = .ok s) :
    Sound first s ∧ ∀ a s', Proper a s → step a s = .ok s' → (Sound first s' ↔ Fits a s) := by
  have hinv : Inv first s := by
    refine guarded_invariant ?_ hg (boot_inv hram refs mem) hr
    intro a u u' hi ha hs
    have hstep := step_inv hi ha.1 ha.2
    rwa [hs] at hstep
  refine ⟨hinv.sound, ?_⟩
  intro a s' hp hs
  by_cases hf : Fits a s
  · have hstep := step_inv hinv hp hf
    rw [hs] at hstep
    exact ⟨fun _ => hf, fun _ => hstep.sound⟩
  · refine ⟨fun hsound => ?_, fun h => absurd h hf⟩
    cases a with
    | kmalloc t sz =>
      simp only [Fits, Classical.not_imp] at hf
      exact absurd hsound (kmalloc_unsound hinv hp hf.1 hf.2 hs)
    | allocKpages t => exact absurd trivial hf
    | resume t => exact absurd trivial hf
    | kfree t ptr => exact absurd trivial hf
    | store a v => exact absurd trivial hf

instance decidableProper : ∀ (a : Call T) (s : Memory T), Decidable (Proper a s)
  | .kmalloc _ sz, _ => inferInstanceAs (Decidable (sz < 2 ^ 32))
  | .allocKpages _, _ => isTrue trivial
  | .resume _, _ => isTrue trivial
  | .kfree _ ptr, s => inferInstanceAs (Decidable (ptr = 0 ∨ ptr ∈ s.blocks.map Prod.fst))
  | .store a _, s => inferInstanceAs (Decidable (∃ b ∈ s.blocks, b.1 ≤ a ∧ a < b.1 + b.2))

instance decidableFits : ∀ (a : Call T) (s : Memory T), Decidable (Fits a s)
  | .kmalloc _ sz, s =>
    inferInstanceAs (Decidable (largestSubpageSize ≤ sz → s.ram.NoWrap ((sz + pageSize - 1) / pageSize)))
  | .allocKpages _, _ => isTrue trivial
  | .resume _, _ => isTrue trivial
  | .kfree _ _, _ => isTrue trivial
  | .store _ _, _ => isTrue trivial

/-- A kernel with 256 pages from 0x40000 on. -/
def smallBoot : Memory ℕ := boot 0x40000 0x140000 (fun _ => ⟨none, none, 0, 0, 0⟩) (fun _ => 0)

/-- Two pages and a small block, the pages freed again. -/
theorem kmalloc_sound_small :
    ∃ s, run step [.kmalloc 0 5000, .kmalloc 1 20, .allocKpages 1, .resume 1, .allocKpages 1, .resume 1,
        .kfree 0 0x80040000] smallBoot = .ok s ∧ s.blocks = [(0x80042fe0, 20)] ∧
      Sound 0x40000 s ∧ ∀ a s', Proper a s → step a s = .ok s' → (Sound 0x40000 s' ↔ Fits a s) := by
  have hr : ∃ s, run step [.kmalloc 0 5000, .kmalloc 1 20, .allocKpages 1, .resume 1, .allocKpages 1, .resume 1,
        .kfree 0 0x80040000] smallBoot = .ok s ∧ s.blocks = [(0x80042fe0, 20)] := by
    decide +kernel
  obtain ⟨s, hr, hb⟩ := hr
  exact ⟨s, hr, hb, kmalloc_sound_iff (by decide) (by decide +kernel) hr⟩

/--
A console read of 2^32 - 1 bytes is granted a buffer of no pages at all, which
the next request for a page is granted as well.
-/
theorem kmalloc_wraps :
    (Ram.mk 0x40000 0x140000).Good ∧ Guarded step Proper [.kmalloc 0 (2 ^ 32 - 1), .kmalloc 1 4096] smallBoot ∧
      ∃ s, run step [.kmalloc 0 (2 ^ 32 - 1), .kmalloc 1 4096] smallBoot = .ok s ∧
        s.blocks = [(0x80040000, 4096), (0x80040000, 2 ^ 32 - 1)] ∧ ¬Sound 0x40000 s := by
  refine ⟨by decide, by decide +kernel, ?_⟩
  have hr : ∃ s, run step [.kmalloc 0 (2 ^ 32 - 1), .kmalloc 1 4096] smallBoot = .ok s ∧
      s.blocks = [(0x80040000, 4096), (0x80040000, 2 ^ 32 - 1)] := by
    decide +kernel
  obtain ⟨s, hr, hb⟩ := hr
  refine ⟨s, hr, hb, ?_⟩
  intro hsound
  have hapart := hsound.2.apart
  rw [hb] at hapart
  exact absurd hapart (by decide)

end OS161.KernelMemory
