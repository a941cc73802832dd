import OS161.Kmalloc
import Mathlib.Data.List.Perm.Subperm
import Mathlib.Tactic.IntervalCases

/-!
# The blocks of a page

A page is cut into `pageSize / size` blocks. Those on the free list and those
that are live share them out: every block of a managed page is one or the
other, which is what allocating the head of the list and freeing onto it
preserve. How many blocks a free list has is then a matter of counting.
-/

set_option autoImplicit false

namespace OS161.Kmalloc

open Function Links PhysicalMemory

variable {a : ℕ}

theorem sizeOf_facts {k : ℕ} (hk : k < nsizes) :
    0 < sizeOf k ∧ sizeOf k % 16 = 0 ∧ 2 ≤ pageSize / sizeOf k ∧ pageSize / sizeOf k * sizeOf k = pageSize := by
  unfold nsizes at hk
  interval_cases k <;> decide

theorem pointer_word {o : Option ℕ} (h : o ≠ some 0) : pointer (word o) = o := by
  cases o with
  | none => rfl
  | some a =>
    have ha : a ≠ 0 := fun ha => h (ha ▸ rfl)
    simp [pointer, word, ha]

theorem sub32_of_le {a b : ℕ} (h : b ≤ a) (ha : a < 2 ^ 32) : sub32 a b = a - b := by
  unfold sub32
  omega

/-- The head of the page's free list. -/
def Pageref.head (pr : Pageref) : Option ℕ :=
  if pr.freelistOffset = invalidOffset then none else some (pr.pageaddr + pr.freelistOffset)

def Pageref.size (pr : Pageref) : ℕ := sizeOf pr.blocktype

def Pageref.IsBlock (pr : Pageref) (a : ℕ) : Prop :=
  ∃ i, i < pageSize / pr.size ∧ a = pr.pageaddr + i * pr.size

/-- What there is to say of one page, given the addresses of the live blocks and its free list. -/
structure Page (mem : ℕ → ℕ) (live : List ℕ) (pr : Pageref) (free : List ℕ) : Prop where
  typed : pr.blocktype < nsizes
  addr : 0 < pr.pageaddr ∧ pr.pageaddr + pageSize ≤ 2 ^ 32
  path : Path (fun a => pointer (mem a)) pr.head free
  length : free.length = pr.nfree
  block : ∀ a ∈ free, pr.IsBlock a
  split : ∀ a, pr.IsBlock a → (a ∈ free ↔ a ∉ live)

theorem IsBlock.bounds {pr : Pageref} (hk : pr.blocktype < nsizes) (h : pr.IsBlock a) :
    pr.pageaddr ≤ a ∧ a + pr.size ≤ pr.pageaddr + pageSize := by
  obtain ⟨i, hi, rfl⟩ := h
  obtain ⟨-, -, -, hmul⟩ := sizeOf_facts hk
  have hle : (i + 1) * pr.size ≤ pageSize / pr.size * pr.size := Nat.mul_le_mul_right _ hi
  rw [Pageref.size] at *
  rw [hmul, Nat.add_mul, Nat.one_mul] at hle
  omega

/-- Blocks are so far from each other that they do not overlap. -/
theorem IsBlock.apart {pr : Pageref} {b : ℕ} (ha : pr.IsBlock a) (hb : pr.IsBlock b) (hne : a ≠ b) :
    a + pr.size ≤ b ∨ b + pr.size ≤ a := by
  obtain ⟨i, -, rfl⟩ := ha
  obtain ⟨j, -, rfl⟩ := hb
  obtain hij | rfl | hji := Nat.lt_trichotomy i j
  · have := Nat.mul_le_mul_right pr.size hij
    rw [Nat.succ_mul] at this
    omega
  · exact absurd rfl hne
  · have := Nat.mul_le_mul_right pr.size hji
    rw [Nat.succ_mul] at this
    omega

theorem isBlock_iff {pr : Pageref} (hk : pr.blocktype < nsizes) :
    pr.IsBlock a ↔ pr.pageaddr ≤ a ∧ a < pr.pageaddr + pageSize ∧ (a - pr.pageaddr) % pr.size = 0 := by
  obtain ⟨hpos, -, -, hmul⟩ := sizeOf_facts hk
  constructor
  · intro h
    obtain ⟨hlo, hhi⟩ := IsBlock.bounds hk h
    obtain ⟨i, -, rfl⟩ := h
    refine ⟨hlo, ?_, ?_⟩
    · rw [Pageref.size] at *
      omega
    · rw [Nat.add_sub_cancel_left, Nat.mul_mod_left]
  · rintro ⟨hlo, hhi, hmod⟩
    refine ⟨(a - pr.pageaddr) / pr.size, ?_, ?_⟩
    · rw [Nat.div_lt_iff_lt_mul (by exact hpos)]
      simp only [Pageref.size] at *
      rw [hmul]
      omega
    · rw [Nat.div_mul_cancel (Nat.dvd_of_mod_eq_zero hmod)]
      omega

/-- The blocks of a page, in the order of their addresses. -/
def Pageref.blocks (pr : Pageref) : List ℕ :=
  (List.range (pageSize / pr.size)).map (fun i => pr.pageaddr + i * pr.size)

theorem mem_blocks {pr : Pageref} : a ∈ pr.blocks ↔ pr.IsBlock a := by
  simp only [Pageref.blocks, List.mem_map, List.mem_range, Pageref.IsBlock]
  constructor
  · rintro ⟨i, hi, rfl⟩
    exact ⟨i, hi, rfl⟩
  · rintro ⟨i, hi, rfl⟩
    exact ⟨i, hi, rfl⟩

theorem length_blocks (pr : Pageref) : pr.blocks.length = pageSize / pr.size := by
  simp [Pageref.blocks]

section

variable {mem : ℕ → ℕ} {live free : List ℕ} {pr : Pageref}

theorem Page.nfree_le (h : Page mem live pr free) : pr.nfree ≤ pageSize / pr.size := by
  rw [← h.length, ← length_blocks]
  exact (List.subperm_of_subset h.path.nodup (fun a ha => mem_blocks.mpr (h.block a ha))).length_le

/-- A page with fewer free blocks than it has blocks has a live one. -/
theorem Page.exists_live (h : Page mem live pr free) (hlt : pr.nfree < pageSize / pr.size) :
    ∃ b ∈ live, pr.IsBlock b := by
  by_contra hnone
  push Not at hnone
  have hsub : pr.blocks ⊆ free := by
    intro a ha
    have hb := mem_blocks.mp ha
    refine (h.split a hb).mpr ?_
    exact fun hl => hnone a hl hb
  have hnd : pr.blocks.Nodup := by
    refine List.Nodup.map_on ?_ List.nodup_range
    intro i _ j _ hij
    have hpos := (sizeOf_facts h.typed).1
    have : i * pr.size = j * pr.size := by omega
    exact Nat.eq_of_mul_eq_mul_right hpos this
  have := (List.subperm_of_subset hnd hsub).length_le
  rw [length_blocks, h.length] at this
  omega

/-- Where as many blocks are free as there are, all are. -/
theorem Page.all_free (h : Page mem live pr free) (hfull : pr.nfree = pageSize / pr.size) (ha : pr.IsBlock a) :
    a ∈ free := by
  have hsub := List.subperm_of_subset h.path.nodup (fun a ha => mem_blocks.mpr (h.block a ha))
  have hperm := hsub.perm_of_length_le (by rw [length_blocks, h.length, hfull])
  exact hperm.mem_iff.mpr (mem_blocks.mpr ha)

theorem Page.head_offset (h : Page mem live pr (a::free)) : pr.freelistOffset < pageSize ∧ a = pr.pageaddr + pr.freelistOffset := by
  have hhead := h.path.1
  have hb := IsBlock.bounds h.typed (h.block a List.mem_cons_self)
  have hpos := (sizeOf_facts h.typed).1
  unfold Pageref.head at hhead
  split at hhead
  · cases hhead
  · simp only [Option.some.injEq] at hhead
    subst hhead
    rw [Pageref.size] at hb
    exact ⟨by omega, rfl⟩

theorem Page.nil_offset (h : Page mem live pr []) : pr.freelistOffset = invalidOffset := by
  have hhead := h.path
  simp only [path_nil, Pageref.head] at hhead
  split at hhead
  · assumption
  · cases hhead

/-- A page is left alone by what happens off its free list and to blocks that are not its own. -/
theorem Page.frame {mem' : ℕ → ℕ} {live' : List ℕ} (h : Page mem live pr free)
    (hmem : ∀ a ∈ free, mem' a = mem a) (hlive : ∀ a, pr.IsBlock a → (a ∈ live' ↔ a ∈ live)) :
    Page mem' live' pr free where
  typed := h.typed
  addr := h.addr
  path := h.path.congr (fun a ha => by rw [hmem a ha])
  length := h.length
  block := h.block
  split a ha := by rw [h.split a ha, hlive a ha]

/-- The pageref after the head of its free list has been taken, `free` being the rest. -/
def Pageref.popped (pr : Pageref) (free : List ℕ) : Pageref :=
  { pr with
    nfree := pr.nfree - 1
    freelistOffset := match free with
      | [] => invalidOffset
      | b::_ => b - pr.pageaddr }

theorem popped_pageaddr : (pr.popped free).pageaddr = pr.pageaddr := rfl

theorem popped_cons_offset : (pr.popped (a::free)).freelistOffset = a - pr.pageaddr := rfl

theorem isBlock_ne_invalid (hk : pr.blocktype < nsizes) (h : pr.IsBlock a) :
    a - pr.pageaddr < pageSize ∧ a - pr.pageaddr ≠ invalidOffset := by
  have hb := (isBlock_iff hk).mp h
  unfold pageSize at *
  unfold invalidOffset
  omega

theorem head_of_isBlock {pr' : Pageref} (hk : pr.blocktype < nsizes) (h : pr.IsBlock a)
    (hpage : pr'.pageaddr = pr.pageaddr) (hoff : pr'.freelistOffset = a - pr.pageaddr) : pr'.head = some a := by
  have hlo := (IsBlock.bounds hk h).1
  rw [Pageref.head, hoff, if_neg (isBlock_ne_invalid hk h).2, hpage, Nat.add_sub_of_le hlo]

theorem Page.pop (h : Page mem live pr (a::free)) : Page mem (a::live) (pr.popped free) free where
  typed := h.typed
  addr := h.addr
  path := by
    have hrest : Path (fun b => pointer (mem b)) (pointer (mem a)) free := h.path.2
    cases free with
    | nil => simp [Pageref.head, Pageref.popped]
    | cons b free =>
      have hb := h.block b (by simp)
      exact ⟨head_of_isBlock h.typed hb popped_pageaddr popped_cons_offset, hrest.2⟩
  length := by
    have := h.length
    simp only [List.length_cons] at this
    simp only [Pageref.popped]
    omega
  block b hb := h.block b (List.mem_cons_of_mem _ hb)
  split b hb := by
    have hnd := (List.nodup_cons.mp h.path.nodup).1
    have := h.split b hb
    simp only [List.mem_cons] at this ⊢
    by_cases hba : b = a
    · subst hba
      simp [hnd]
    · simpa [hba] using this

/-- Freeing a block puts it in front of the free list. -/
theorem Page.push {mem' : ℕ → ℕ} {live' : List ℕ} (h : Page mem live pr free) (ha : pr.IsBlock a)
    (hlive : a ∈ live) (hnext : pointer (mem' a) = pr.head) (hmem : ∀ b ∈ free, mem' b = mem b)
    (hgone : ∀ b, b ∈ live' ↔ b ∈ live ∧ b ≠ a) :
    Page mem' live' { pr with freelistOffset := a - pr.pageaddr, nfree := pr.nfree + 1 } (a::free) where
  typed := h.typed
  addr := h.addr
  path := by
    refine ⟨head_of_isBlock h.typed ha rfl rfl, ?_⟩
    change Path _ (pointer (mem' a)) free
    rw [hnext]
    exact h.path.congr (fun b hb => by rw [hmem b hb])
  length := by
    simp [h.length]
  block b hb := by
    obtain rfl | hb := List.mem_cons.mp hb
    · exact ha
    · exact h.block b hb
  split b hb := by
    rw [List.mem_cons, h.split b hb, hgone]
    by_cases hba : b = a
    · simp [hba]
    · simp [hba]

/-- What links the blocks of a new page leaves other addresses alone. -/
theorem linkBlocks_of_forall_ne {size n : ℕ} (hout : ∀ i < n, a ≠ pr.pageaddr + i * size) :
    linkBlocks mem pr.pageaddr size n a = mem a := by
  induction n using linkBlocks.induct with
  | case1 => rfl
  | case2 =>
    have := hout 0 (by omega)
    exact update_of_ne (by simpa using this) _ _
  | case3 n ih =>
    rw [linkBlocks, update_of_ne (hout (n + 1) (by omega))]
    exact ih (fun i hi => hout i (by omega))

theorem linkBlocks_zero {page size n : ℕ} (hsize : 0 < size) : linkBlocks mem page size (n + 1) page = 0 := by
  induction n with
  | zero => exact update_self ..
  | succ n ih =>
    have hne : page ≠ page + (n + 1) * size := by
      have : 0 < (n + 1) * size := Nat.mul_pos (Nat.succ_pos n) hsize
      omega
    rw [linkBlocks, update_of_ne hne, ih]

theorem linkBlocks_succ {page size n i : ℕ} (hsize : 0 < size) (hi : i + 1 < n) :
    linkBlocks mem page size n (page + (i + 1) * size) = page + i * size := by
  induction n using linkBlocks.induct with
  | case1 => omega
  | case2 => omega
  | case3 n ih =>
    by_cases hin : i = n
    · subst hin
      rw [linkBlocks, update_self]
    · have hne : page + (i + 1) * size ≠ page + (n + 1) * size := by
        intro heq
        have : (i + 1) * size = (n + 1) * size := by omega
        have := Nat.eq_of_mul_eq_mul_right hsize this
        omega
      rw [linkBlocks, update_of_ne hne]
      exact ih (by omega)

/-- The free list of a new page runs from its last block down to its first. -/
def descending (page size : ℕ) : ℕ → List ℕ
  | 0 => []
  | n + 1 => (page + n * size) :: descending page size n

theorem length_descending {page size n : ℕ} : (descending page size n).length = n := by
  induction n with
  | zero => rfl
  | succ n ih => simp [descending, ih]

theorem mem_descending {page size n : ℕ} : a ∈ descending page size n ↔ ∃ i, i < n ∧ a = page + i * size := by
  induction n with
  | zero => simp [descending]
  | succ n ih =>
    rw [descending, List.mem_cons, ih]
    constructor
    · rintro (rfl | ⟨i, hi, rfl⟩)
      · exact ⟨n, by omega, rfl⟩
      · exact ⟨i, by omega, rfl⟩
    · rintro ⟨i, hi, rfl⟩
      by_cases hin : i = n
      · exact .inl (hin ▸ rfl)
      · exact .inr ⟨i, by omega, rfl⟩

theorem path_descending (mem : ℕ → ℕ) {page size n m : ℕ} (hsize : 0 < size) (hpage : 0 < page) (hm : m < n) :
    Path (fun a => pointer (linkBlocks mem page size n a)) (some (page + m * size)) (descending page size (m + 1)) := by
  induction m with
  | zero =>
    obtain ⟨k, rfl⟩ : ∃ k, n = k + 1 := ⟨n - 1, by omega⟩
    simp [descending, linkBlocks_zero hsize, pointer]
  | succ m ih =>
    refine ⟨rfl, ?_⟩
    have hne : page + m * size ≠ 0 := by omega
    change Path _ (pointer (linkBlocks mem page size n (page + (m + 1) * size))) _
    rw [linkBlocks_succ hsize hm, pointer, if_neg hne]
    exact ih (by omega)

/-- A fresh page, all of whose blocks are linked. -/
theorem Page.fresh (hk : pr.blocktype < nsizes) (hpos : 0 < pr.pageaddr) (haddr : pr.pageaddr + pageSize ≤ 2 ^ 32)
    (hn : pr.nfree = pageSize / pr.size) (hoff : pr.freelistOffset = (pageSize / pr.size - 1) * pr.size)
    (hlive : ∀ a, pr.IsBlock a → a ∉ live) :
    Page (linkBlocks mem pr.pageaddr pr.size (pageSize / pr.size)) live pr
      (descending pr.pageaddr pr.size (pageSize / pr.size)) := by
  obtain ⟨hsize, -, htwo, hmul⟩ := sizeOf_facts hk
  have hmem : ∀ a, a ∈ descending pr.pageaddr pr.size (pageSize / pr.size) ↔ pr.IsBlock a := fun a => mem_descending
  refine ⟨hk, ⟨hpos, haddr⟩, ?_, ?_, ?_, ?_⟩
  · have hlast : pr.IsBlock (pr.pageaddr + pr.freelistOffset) := by
      refine ⟨pageSize / pr.size - 1, ?_, by rw [hoff]⟩
      simp only [Pageref.size]
      omega
    have hne := (isBlock_ne_invalid hk hlast).2
    rw [Nat.add_sub_cancel_left] at hne
    have hlt : pageSize / pr.size - 1 < pageSize / pr.size := by
      simp only [Pageref.size]
      omega
    have hpath := path_descending mem hsize hpos hlt
    rw [Pageref.head, if_neg hne, hoff]
    have hsucc : pageSize / pr.size - 1 + 1 = pageSize / pr.size := by
      simp only [Pageref.size]
      omega
    rwa [hsucc] at hpath
  · rw [length_descending, hn]
  · intro a ha
    exact (hmem a).mp ha
  · intro a ha
    simp [hmem a, ha, hlive a ha]

end

end OS161.Kmalloc
