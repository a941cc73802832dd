import OS161.UserHeap

/-!
# Memory for a user program

`malloc` takes the first free block of the heap that is big enough, or gets
more memory at the top. Sizes are rounded up to whole headers, and what is got
at the top to whole pages, in numbers of 32 bits.
-/

set_option autoImplicit false

namespace OS161.UserMalloc

open Function OS161.Aborts OS161.Tilings OS161.UserHeap

def mallocInit (k : Sbrk) : Malloc Unit := do
  let h ← get
  require (h.heapbase = 0 ∧ h.heaptop = 0) .errx
  match ← sbrk k 0 with
  | none => throw .errx
  | some x => do
    require (x ≠ 0) .errx
    modify fun h => { h with heapbase := x, heaptop := x }
    onlyIf (x % MBLOCKSIZE ≠ 0) (do
      let adjust := MBLOCKSIZE - x % MBLOCKSIZE
      match ← sbrk k adjust with
      | none => throw .errx
      | some y => do
        require (y = x) .errx
        modify fun h => { h with heapbase := x + adjust, heaptop := x + adjust })

def mallocSbrk (k : Sbrk) (size : ℕ) : Malloc (Option ℕ) := do
  match ← sbrk k size with
  | none => pure none
  | some x => do
    let h ← get
    require (x = h.heaptop) .errx
    modify fun h => { h with heaptop := (h.heaptop + size) % 2^32 }
    pure (some x)

/-- Where the search for a block ends: at one that can be had, or at the top, with the last block and its size. -/
inductive Found where
  | block (mh : ℕ)
  | none (mh : Option ℕ) (rightprevblock : ℕ)

-- the fuel is the size of the heap, through which every header leads upwards
/-- The loop of `malloc` over the headers. -/
def search (size : ℕ) : (fuel i rightprevblock : ℕ) → (mh : Option ℕ) → Malloc Found
  | 0, _, _, _ => throw .unfinished
  | fuel+1, i, rightprevblock, mh => do
    let h ← get
    if i < h.heaptop then do
      let b ← header i
      require (mOk b) .errx
      require (b.prevblock = rightprevblock) .errx
      if b.inuse = true ∨ mSize b < size then search size fuel ((i + mNextoff b) % 2^32) b.nextblock (some i)
      else pure (.block i)
    else do
      require (i = h.heaptop) .errx
      pure (.none mh rightprevblock)

/-- A size in bytes rounded up to whole headers. -/
def roundSize (size : ℕ) : ℕ := (size + (MBLOCKSIZE - 1)) % 2^32 / MBLOCKSIZE * MBLOCKSIZE

/-- A size in bytes rounded up to whole pages. -/
def roundPage (size : ℕ) : ℕ := PAGE_SIZE * ((size + (PAGE_SIZE - 1)) % 2^32 / PAGE_SIZE)

/-- A block that has been found is split and taken. -/
def takeBlock (mh size : ℕ) : Malloc (Option ℕ) := do
  mallocSplit mh size
  setHeader mh fun b => { b with inuse := true }
  pure (some ((mh + MBLOCKSIZE) % 2^32))

/-- The block at the top is free, and it is extended. -/
def extendTop (k : Sbrk) (mh size : ℕ) : Malloc (Option ℕ) := do
  let b ← header mh
  require (mSize b < size) .assertion
  let morespace := roundPage (size - mSize b)
  match ← mallocSbrk k morespace with
  | none => pure none
  | some _ => do
    setHeader mh fun b => { b with nextblock := mMkfield ((mNextoff b + morespace) % 2^32), inuse := true }
    mallocSplit mh size
    pure (some ((mh + MBLOCKSIZE) % 2^32))

/-- A new block is put at the top. -/
def addTop (k : Sbrk) (rightprevblock size : ℕ) : Malloc (Option ℕ) := do
  let morespace := roundPage ((MBLOCKSIZE + size) % 2^32)
  match ← mallocSbrk k morespace with
  | none => pure none
  | some mh => do
    setHeader mh fun _ => ⟨rightprevblock, mMkfield morespace, true, MMAGIC, MMAGIC⟩
    mallocSplit mh size
    pure (some ((mh + MBLOCKSIZE) % 2^32))

/-- More memory is got, where nothing has been found. -/
def expand (k : Sbrk) (mh : Option ℕ) (rightprevblock size : ℕ) : Malloc (Option ℕ) :=
  match mh with
  | none => addTop k rightprevblock size
  | some mh => do
    let b ← header mh
    if b.inuse = false then extendTop k mh size
    else addTop k rightprevblock size

def malloc (k : Sbrk) (size : ℕ) : Malloc (Option ℕ) := do
  let h ← get
  onlyIf (h.heapbase = 0) (mallocInit k)
  let h ← get
  require (h.heapbase ≠ 0 ∧ h.heaptop ≠ 0 ∧ h.heapbase ≤ h.heaptop) .errx
  match ← search (roundSize size) (h.heaptop - h.heapbase + 1) h.heapbase 0 none with
  | .block mh => takeBlock mh (roundSize size)
  | .none mh rightprevblock => expand k mh rightprevblock (roundSize size)

variable {k : Sbrk} {h h' : Heap} {bs l r : List Block} {b c : Block} {mem mem' : ℕ → Mheader} {a prev size : ℕ}
  {reason : Halt → Prop}

/-- A free block that has room for some bytes. -/
def Fits (size : ℕ) (b : Block) : Prop := b.inuse = false ∧ size + MBLOCKSIZE ≤ b.bytes

instance decidableFits (size : ℕ) (b : Block) : Decidable (Fits size b) := inferInstanceAs (Decidable (_ ∧ _))

/-- What the search finds in a row of blocks. -/
inductive Searched (size : ℕ) (a : ℕ) : List Block → Found → Prop where
  | block (l : List Block) (b : Block) (r : List Block) (hno : ∀ c ∈ l, ¬Fits size c) (hfits : Fits size b) :
      Searched size a (l ++ b::r) (.block (a + extent Block.bytes l))
  | top (l : List Block) (b : Block) (hno : ∀ c ∈ l ++ [b], ¬Fits size c) :
      Searched size a (l ++ [b]) (.none (some (a + extent Block.bytes l)) b.units)

theorem Searched.cons {f : Found} (hf : Searched size (a + b.bytes) bs f) (hno : ¬Fits size b) :
    Searched size a (b::bs) f := by
  cases hf with
  | block l c r hnone hfits =>
    have hsame : a + b.bytes + extent Block.bytes l = a + extent Block.bytes (b::l) := by simp [Nat.add_assoc]
    rw [hsame]
    exact .block (b::l) c r (List.forall_mem_cons.mpr ⟨hno, hnone⟩) hfits
  | top l c hnone =>
    have hsame : a + b.bytes + extent Block.bytes l = a + extent Block.bytes (b::l) := by simp [Nat.add_assoc]
    rw [hsame]
    exact .top (b::l) c (List.forall_mem_cons.mpr ⟨hno, hnone⟩)

-- by induction on the row of blocks that is still ahead
theorem search_searches {fuel : ℕ} {mh : Option ℕ} (hheaded : Headed h.mem a prev bs)
    (htop : h.heaptop = a + extent Block.bytes bs) (hwithin : h.heaptop ≤ userTop) (hfuel : extent Block.bytes bs < fuel) :
    Ends (fun _ => False) (search size fuel a prev mh) h (fun f h' => h' = h ∧
      (bs = [] ∧ f = .none mh prev ∨ Searched size a bs f)) := by
  unfold userTop at hwithin
  induction bs generalizing a prev mh fuel with
  | nil =>
    obtain ⟨fuel, rfl⟩ := Nat.exists_eq_succ_of_ne_zero (Nat.ne_of_gt (Nat.lt_of_le_of_lt (Nat.zero_le _) hfuel))
    rw [search, ends_bind, ends_get, if_neg (by rw [htop]; exact Nat.lt_irrefl _), ends_bind, ends_require]
    exact ⟨fun _ => ends_pure.mpr ⟨rfl, .inl ⟨rfl, rfl⟩⟩, fun hne => hne htop.symm⟩
  | cons b bs ih =>
    obtain ⟨fuel, rfl⟩ := Nat.exists_eq_succ_of_ne_zero (Nat.ne_of_gt (Nat.lt_of_le_of_lt (Nat.zero_le _) hfuel))
    obtain ⟨hat, hpos, hrest⟩ := hheaded
    rw [extent_cons] at htop hfuel
    have hbytes : 8 ≤ b.bytes := Nat.le_mul_of_pos_right 8 hpos
    have hlt : b.bytes < 2^32 := by omega
    rw [search, ends_bind, ends_get, if_pos (by omega), ends_bind, ends_header, hat, ends_bind, ends_require]
    refine ⟨fun _ => ?_, fun hno => hno ⟨rfl, rfl⟩⟩
    rw [ends_bind, ends_require]
    refine ⟨fun _ => ?_, fun hno => hno rfl⟩
    rw [mSize_header hlt hpos, mNextoff_header hlt, Nat.mod_eq_of_lt (by omega)]
    by_cases hfits : Fits size b
    · rw [if_neg]
      · exact ends_pure.mpr ⟨rfl, .inr (.block [] b bs (fun c hc => absurd hc List.not_mem_nil) hfits)⟩
      · obtain ⟨hfree, hroom⟩ := hfits
        rw [Block.header, hfree]
        unfold MBLOCKSIZE at *
        simp only [Bool.false_eq_true, false_or]
        omega
    · rw [if_pos]
      · apply (ih hrest (by omega) (by omega)).imp
        rintro f h' ⟨rfl, ⟨rfl, rfl⟩ | hf⟩
        · refine ⟨rfl, .inr (.top [] b ?_)⟩
          intro c hc
          rw [List.mem_singleton.mp hc]
          exact hfits
        · exact ⟨rfl, .inr (hf.cons hfits)⟩
      · by_contra hno
        rw [not_or] at hno
        refine hfits ⟨by simpa [Block.header] using hno.1, ?_⟩
        unfold MBLOCKSIZE at *
        omega

/-- The heap after a block has been given out, `bs` being what it had before. -/
structure Given (k : Sbrk) (bs : List Block) (size p : ℕ) (bs' : List Block) (h : Heap) : Prop where
  consistent : Consistent k bs' h
  block : ∃ x b, p = x + MBLOCKSIZE ∧ (x, b) ∈ places Block.bytes k.initial bs' ∧ b.inuse = true ∧
    size + MBLOCKSIZE ≤ b.bytes ∧ ∀ c, (x, c) ∈ places Block.bytes k.initial bs → c.inuse = false
  kept : ∀ y c, (y, c) ∈ places Block.bytes k.initial bs → c.inuse = true → (y, c) ∈ places Block.bytes k.initial bs'

/-- Free blocks are made into one that is given out. -/
theorem given_of_cut {fs : List Block} {n req : ℕ} (hc : Consistent k (l ++ (cut size ⟨n, true⟩ ++ r)) h)
    (hfree : ∀ c ∈ fs, c.inuse = false) (hplace : r = [] ∨ extent Block.bytes fs = MBLOCKSIZE * n)
    (hsize : size % MBLOCKSIZE = 0) (hroom : size + MBLOCKSIZE ≤ MBLOCKSIZE * n) (hreq : req ≤ size) :
    Given k (l ++ (fs ++ r)) req (k.initial + extent Block.bytes l + MBLOCKSIZE) (l ++ (cut size ⟨n, true⟩ ++ r)) h := by
  obtain ⟨u, rest, hcut, hinuse, hu, -, hextent⟩ := cut_cases (b := ⟨n, true⟩) hsize hroom
  have hpos : ∀ c ∈ l, 0 < c.bytes := fun c hl =>
    Nat.mul_pos (by decide) (hc.headed.pos c (List.mem_append_left _ hl))
  refine ⟨hc, ⟨_, u, rfl, ?_, hinuse, Nat.le_trans (Nat.add_le_add_right hreq _) hu, ?_⟩, ?_⟩
  · rw [hcut]
    exact mem_places.mpr ⟨l, rest ++ r, rfl, rfl⟩
  · intro c hmem
    rw [places_append, List.mem_append] at hmem
    obtain hmem | hmem := hmem
    · obtain ⟨l₁, l₂, rfl, heq⟩ := mem_places.mp hmem
      have := hpos c (List.mem_append_right _ List.mem_cons_self)
      rw [extent_append, extent_cons] at heq
      omega
    · rw [places_append, List.mem_append] at hmem
      obtain hmem | hmem := hmem
      · obtain ⟨l₁, l₂, rfl, -⟩ := mem_places.mp hmem
        exact hfree c (List.mem_append_right _ List.mem_cons_self)
      · obtain rfl | hsum := hplace
        · exact absurd hmem List.not_mem_nil
        · have hwithin := (places_within hmem).1
          unfold MBLOCKSIZE at *
          omega
  · intro y c hmem hused
    rw [places_append, List.mem_append] at hmem ⊢
    refine hmem.imp_right fun hmem => ?_
    rw [places_append, List.mem_append] at hmem ⊢
    obtain hmem | hmem := hmem
    · obtain ⟨l₁, l₂, rfl, -⟩ := mem_places.mp hmem
      rw [hfree c (List.mem_append_right _ List.mem_cons_self)] at hused
      exact Bool.noConfusion hused
    · obtain rfl | hsum := hplace
      · exact absurd hmem List.not_mem_nil
      · rw [hextent]
        rw [hsum] at hmem
        exact .inr hmem

/-- A block has been given out, and a tidy row is left tidy. -/
def Gives (k : Sbrk) (bs : List Block) (req : ℕ) (p : Option ℕ) (h : Heap) : Prop :=
  ∃ q bs', p = some q ∧ Given k bs req q bs' h ∧ (Tidy bs → Tidy bs')

theorem takeBlock_gives {req : ℕ} (hc : Consistent k (l ++ b::r) h) (hsize : size % MBLOCKSIZE = 0) (hfits : Fits size b)
    (hreq : req ≤ size) : Ends (fun _ => False) (takeBlock (k.initial + extent Block.bytes l) size) h (Gives k (l ++ b::r) req) := by
  obtain ⟨hfree, hroom⟩ := hfits
  have hbelow := hc.placed.below
  have htop := hc.within
  rw [takeBlock, ends_bind]
  apply (mallocSplit_splits hc hsize hroom).imp
  intro _ h₁ hc₁
  rw [ends_bind, ends_setHeader, ends_pure]
  obtain ⟨u, rest, hcut, hcut'⟩ := cut_mark size b true
  rw [hcut] at hc₁
  have hc₂ : Consistent k (l ++ (⟨u.units, true⟩::(rest ++ r))) _ := Consistent.mark hc₁ true
  rw [← List.cons_append, ← hcut'] at hc₂
  rw [Nat.mod_eq_of_lt (by unfold userTop Block.bytes MBLOCKSIZE at *; omega)]
  have hgiven : Given k (l ++ ([b] ++ r)) req _ _ _ :=
    given_of_cut hc₂ (List.forall_mem_singleton.mpr hfree) (.inr (Nat.add_zero _)) hsize hroom hreq
  exact ⟨_, _, rfl, hgiven, fun ht => (ht.around hfree).1.tidy (ht.around hfree).2⟩

/-- What getting more memory at the top leaves, if it is granted. -/
theorem mallocSbrk_moves (hc : Consistent k bs h) (size : ℕ) : Ends (fun _ => False) (mallocSbrk k size) h (fun o h' =>
    o = none ∧ k.grants h.heaptop (signed size) = false ∧ h' = h ∨
    o = some h.heaptop ∧ k.grants h.heaptop (signed size) = true ∧ h' = { h with
      brk := (h.heaptop + signed size).toNat
      heaptop := (h.heaptop + size) % 2^32 }) := by
  rw [mallocSbrk, ends_bind, sbrk, ends_bind, ends_get, hc.brk]
  by_cases hgrants : k.grants h.heaptop (signed size) = true
  · rw [if_pos hgrants, ends_bind, ends_modify, ends_pure]
    dsimp only
    rw [ends_bind, ends_get, ends_bind, ends_require]
    refine ⟨fun _ => ?_, fun hno => hno rfl⟩
    rw [ends_bind, ends_modify, ends_pure, hc.brk]
    exact .inr ⟨rfl, hgrants, rfl⟩
  · rw [if_neg hgrants, ends_pure]
    dsimp only
    rw [ends_pure]
    exact .inl ⟨rfl, by simpa using hgrants, rfl⟩

/-- An amount that `sbrk` takes for a positive one moves the top up by it. -/
theorem granted_top {x m : ℕ} (hm : m < 2^31) (hx : x ≤ userTop) (hgrants : k.grants x (signed m) = true) :
    (x + signed m).toNat = x + m ∧ (x + m) % 2^32 = x + m ∧ x + m ≤ userTop := by
  have hsigned : signed m = m := if_pos hm
  have hwithin := (k.within x _ hgrants).2
  rw [hsigned] at hwithin ⊢
  unfold userTop at *
  omega

theorem roundPage_pages (n : ℕ) : roundPage n % PAGE_SIZE = 0 := Nat.mul_mod_right _ _

theorem pages_units {n : ℕ} (h : n % PAGE_SIZE = 0) : n % MBLOCKSIZE = 0 := by
  unfold PAGE_SIZE at h
  unfold MBLOCKSIZE
  omega

/-- The block at the top, made of free ones or new, is split and given out. -/
theorem splitTop_gives {fs : List Block} {n req : ℕ} (hc : Consistent k (l ++ [⟨n, true⟩]) h)
    (hfree : ∀ c ∈ fs, c.inuse = false) (hsize : size % MBLOCKSIZE = 0) (hroom : size + MBLOCKSIZE ≤ Block.bytes ⟨n, true⟩)
    (hreq : req ≤ size) (htidy : Tidy (l ++ fs) → Around l [] ∧ 2 ≤ n) :
    Ends (fun _ => False) (do
      mallocSplit (k.initial + extent Block.bytes l) size
      pure (some ((k.initial + extent Block.bytes l + MBLOCKSIZE) % 2^32))) h (Gives k (l ++ fs) req) := by
  have hbelow := hc.placed.below
  have hwithin := hc.within
  rw [ends_bind]
  apply (mallocSplit_splits hc hsize hroom).imp
  intro _ h₂ hc₂
  rw [ends_pure, Nat.mod_eq_of_lt (by unfold userTop MBLOCKSIZE at *; omega)]
  have hgiven : Given k (l ++ (fs ++ [])) req _ _ _ := given_of_cut hc₂ hfree (.inl rfl) hsize hroom hreq
  rw [List.append_nil] at hgiven
  exact ⟨_, _, rfl, hgiven, fun ht => (htidy ht).1.tidy fun _ => (htidy ht).2⟩

/-- The block at the top is made bigger, and split. -/
theorem extendTop_gives {req : ℕ} (hc : Consistent k (l ++ [b]) h) (hsize : size % MBLOCKSIZE = 0) (hlt : size < 2^32)
    (hfree : b.inuse = false) (hno : ¬Fits size b)
    (hsmall : k.grants h.heaptop (signed (roundPage (size - (b.bytes - MBLOCKSIZE)))) = false ∨
      req ≤ size ∧ size - (b.bytes - MBLOCKSIZE) ≤ roundPage (size - (b.bytes - MBLOCKSIZE)) ∧
        roundPage (size - (b.bytes - MBLOCKSIZE)) < 2^31) :
    Ends (fun _ => False) (extendTop k (k.initial + extent Block.bytes l) size) h (fun p h' =>
      p = none ∧ h' = h ∨ Gives k (l ++ [b]) req p h') := by
  obtain ⟨-, hat, hpos, hbelow, hwithin⟩ := hc.placed
  have hpages := roundPage_pages (size - (b.bytes - MBLOCKSIZE))
  have hmany := pages_units hpages
  have htop := hc.top
  rw [extent_append, extent_cons, extent_nil, Nat.add_zero, ← Nat.add_assoc] at htop
  have hbytes : b.bytes < 2^32 := by
    unfold userTop at hwithin
    omega
  have hroom : ¬size + MBLOCKSIZE ≤ b.bytes := fun h => hno ⟨hfree, h⟩
  have hone : MBLOCKSIZE ≤ b.bytes := Nat.le_mul_of_pos_right _ hpos
  rw [extendTop, ends_bind, ends_header, hat, mSize_header hbytes hpos, ends_bind, ends_require]
  refine ⟨fun _ => ?_, fun hno => hno (by omega)⟩
  dsimp only
  generalize roundPage (size - (b.bytes - MBLOCKSIZE)) = m at *
  rw [ends_bind]
  apply (mallocSbrk_moves hc _).imp
  rintro o h₁ (⟨rfl, -, rfl⟩ | ⟨rfl, hgrants, rfl⟩)
  · exact ends_pure.mpr (.inl ⟨rfl, rfl⟩)
  · obtain hrefused | ⟨hreq, hmore, hm⟩ := hsmall
    · exact absurd (hgrants.symm.trans hrefused) Bool.noConfusion
    obtain ⟨hbrk, hheap, hin⟩ := granted_top hm hc.within hgrants
    have hunits : mMkfield ((mNextoff (b.header (lastUnits 0 l)) + m) % 2^32) = b.units + m / MBLOCKSIZE := by
      rw [mNextoff_header hbytes, mMkfield_units (Nat.mod_lt _ (by decide))]
      unfold userTop Block.bytes MBLOCKSIZE at *
      omega
    have hnew : Block.bytes ⟨b.units + m / MBLOCKSIZE, true⟩ = b.bytes + m := by
      unfold Block.bytes MBLOCKSIZE at *
      dsimp only
      omega
    have hroom' : size + MBLOCKSIZE ≤ Block.bytes ⟨b.units + m / MBLOCKSIZE, true⟩ := by
      rw [hnew]
      omega
    dsimp only
    rw [ends_bind, ends_setHeader, hbrk, hheap]
    have hc₁ : Consistent k (l ++ [⟨b.units + m / MBLOCKSIZE, true⟩]) { h with
        brk := h.heaptop + m
        heaptop := h.heaptop + m
        mem := update h.mem (k.initial + extent Block.bytes l)
          { h.mem (k.initial + extent Block.bytes l) with
            nextblock := mMkfield ((mNextoff (h.mem (k.initial + extent Block.bytes l)) + m) % 2^32)
            inuse := true } } := by
      refine hc.rebuild ⟨?_, ?_, trivial⟩ rfl ?_ rfl hin fun x hx => update_of_ne (by omega) _ _
      · dsimp only
        rw [update_self, hat, hunits]
        rfl
      · exact Nat.lt_of_lt_of_le hpos (Nat.le_add_right _ _)
      · rw [extent_cons, extent_nil, hnew]
        dsimp only
        omega
    apply (splitTop_gives hc₁ (List.forall_mem_singleton.mpr hfree) hsize hroom' hreq _).imp fun _ _ => .inr
    intro ht
    obtain ⟨haround, htwo⟩ := ht.around hfree
    exact ⟨haround, Nat.le_trans (htwo rfl) (Nat.le_add_right _ _)⟩

/-- A new block is put at the top, and split. -/
theorem addTop_gives {req : ℕ} (hc : Consistent k bs h) (hsize : size % MBLOCKSIZE = 0)
    (hsmall : k.grants h.heaptop (signed (roundPage ((MBLOCKSIZE + size) % 2^32))) = false ∨
      req ≤ size ∧ MBLOCKSIZE + size ≤ roundPage ((MBLOCKSIZE + size) % 2^32) ∧ roundPage ((MBLOCKSIZE + size) % 2^32) < 2^31) :
    Ends (fun _ => False) (addTop k (lastUnits 0 bs) size) h (fun p h' =>
      p = none ∧ h' = h ∨ Gives k bs req p h') := by
  have hpages := roundPage_pages ((MBLOCKSIZE + size) % 2^32)
  have hmany := pages_units hpages
  rw [addTop]
  generalize roundPage ((MBLOCKSIZE + size) % 2^32) = m at *
  have htop := hc.top
  rw [ends_bind]
  apply (mallocSbrk_moves hc _).imp
  rintro o h₁ (⟨rfl, -, rfl⟩ | ⟨rfl, hgrants, rfl⟩)
  · exact ends_pure.mpr (.inl ⟨rfl, rfl⟩)
  · obtain hrefused | ⟨hreq, hmore, hm⟩ := hsmall
    · exact absurd (hgrants.symm.trans hrefused) Bool.noConfusion
    obtain ⟨hbrk, hheap, hin⟩ := granted_top hm hc.within hgrants
    have hunits : mMkfield m = m / MBLOCKSIZE := mMkfield_units (by omega)
    have hnew : Block.bytes ⟨m / MBLOCKSIZE, true⟩ = m := by
      unfold Block.bytes MBLOCKSIZE at *
      dsimp only
      omega
    have hroom : size + MBLOCKSIZE ≤ Block.bytes ⟨m / MBLOCKSIZE, true⟩ := by
      rw [hnew]
      omega
    dsimp only
    rw [ends_bind, ends_setHeader, hbrk, hheap]
    have hc₁ : Consistent k (bs ++ [⟨m / MBLOCKSIZE, true⟩]) { h with
        brk := h.heaptop + m
        heaptop := h.heaptop + m
        mem := update h.mem h.heaptop ⟨lastUnits 0 bs, mMkfield m, true, MMAGIC, MMAGIC⟩ } := by
      have hc₀ : Consistent k (bs ++ []) h := by rwa [List.append_nil]
      refine hc₀.rebuild ⟨?_, ?_, trivial⟩ rfl ?_ rfl hin fun x hx => update_of_ne (by omega) _ _
      · dsimp only
        rw [← htop, update_self, hunits]
        rfl
      · unfold MBLOCKSIZE at *
        dsimp only
        omega
      · rw [extent_cons, extent_nil, hnew]
        dsimp only
        omega
    have htwo : 2 ≤ m / MBLOCKSIZE := by
      unfold PAGE_SIZE at hpages
      unfold MBLOCKSIZE at hmore ⊢
      omega
    have hsplit := splitTop_gives hc₁ (List.forall_mem_nil _) hsize hroom hreq fun ht =>
      ⟨around_top (List.append_nil bs ▸ ht), htwo⟩
    rw [← htop, List.append_nil] at hsplit
    exact hsplit.imp fun _ _ => .inr

/-- How many bytes are lacking at the top for a block with room for some bytes. -/
def need (bs : List Block) (size : ℕ) : ℕ :=
  match bs.getLast? with
  | some b => if b.inuse = false then size - (b.bytes - MBLOCKSIZE) else MBLOCKSIZE + size
  | none => MBLOCKSIZE + size

/-- What the blocks have already is all that need not be got. -/
theorem need_ge (bs : List Block) (size : ℕ) : size ≤ need bs size + extent Block.bytes bs := by
  unfold need
  split
  · next b hb =>
    have := extent_ge (List.mem_of_getLast? hb)
    split_ifs <;> omega
  · omega

/-- The bytes that are asked for, whole pages of them. -/
def request (bs : List Block) (size : ℕ) : ℕ := roundPage (need bs size % 2^32)

theorem need_top (l : List Block) (b : Block) (size : ℕ) :
    need (l ++ [b]) size = if b.inuse = false then size - (b.bytes - MBLOCKSIZE) else MBLOCKSIZE + size := by
  rw [need, List.getLast?_concat]

theorem need_le (bs : List Block) (size : ℕ) : need bs size ≤ MBLOCKSIZE + size := by
  unfold need
  split
  · split_ifs <;> omega
  · exact Nat.le_refl _

/-- What the search leaves where it has found nothing. -/
inductive Exhausted (k : Sbrk) (size : ℕ) : List Block → Option ℕ → ℕ → Prop where
  | empty : Exhausted k size [] none 0
  | top (l : List Block) (b : Block) (hno : ¬Fits size b) :
      Exhausted k size (l ++ [b]) (some (k.initial + extent Block.bytes l)) b.units

theorem expand_gives {req : ℕ} {mh : Option ℕ} (hc : Consistent k bs h) (he : Exhausted k size bs mh prev)
    (hsize : size % MBLOCKSIZE = 0) (hlt : size < 2^32)
    (hsmall : k.grants h.heaptop (signed (request bs size)) = false ∨
      req ≤ size ∧ need bs size ≤ request bs size ∧ request bs size < 2^31) :
    Ends (fun _ => False) (expand k mh prev size) h (fun p h' =>
      p = none ∧ h' = h ∨ Gives k bs req p h') := by
  cases he with
  | empty => exact addTop_gives hc hsize hsmall
  | top l b hno =>
    have hat := hc.placed.mem
    rw [request, need_top] at hsmall
    rw [expand, ends_bind, ends_header, hat, ends_ite]
    constructor
    · intro hfree
      have hfree : b.inuse = false := hfree
      rw [if_pos hfree, Nat.mod_eq_of_lt (Nat.lt_of_le_of_lt (Nat.sub_le _ _) hlt)] at hsmall
      exact extendTop_gives hc hsize hlt hfree hno hsmall
    · intro hused
      have hused : ¬b.inuse = false := hused
      rw [if_neg hused] at hsmall
      have hlast : lastUnits 0 (l ++ [b]) = b.units := lastUnits_append
      have hadd := addTop_gives hc hsize hsmall
      rw [hlast] at hadd
      exact hadd

/-- A heap that has not been used yet. -/
structure Unused (k : Sbrk) (h : Heap) : Prop where
  heapbase : h.heapbase = 0
  heaptop : h.heaptop = 0
  brk : h.brk = k.initial

/-- A heap that has the blocks `bs`; before it has been used it has none. -/
def Ready (k : Sbrk) (bs : List Block) (h : Heap) : Prop := Consistent k bs h ∨ bs = [] ∧ Unused k h

theorem mallocInit_inits (hu : Unused k h) : Ends (fun _ => False) (mallocInit k) h (fun _ h' =>
    Consistent k [] h' ∧ h'.mem = h.mem) := by
  have hzero : k.grants k.initial (signed 0) = true := k.zero
  have hpage := k.aligned
  have hwithin := (k.within k.initial 0 k.zero).2
  rw [mallocInit, ends_bind, ends_get, ends_bind, ends_require]
  refine ⟨fun _ => ?_, fun hno => hno ⟨hu.heapbase, hu.heaptop⟩⟩
  rw [ends_bind, sbrk, ends_bind, ends_get, hu.brk, if_pos hzero, ends_bind, ends_modify, ends_pure]
  dsimp only
  rw [ends_bind, ends_require, hu.brk]
  refine ⟨fun _ => ?_, fun hno => hno (Nat.ne_of_gt k.pos)⟩
  rw [ends_bind, ends_modify, ends_onlyIf]
  refine ⟨fun hodd => absurd ?_ hodd, fun _ => ⟨⟨rfl, trivial, rfl, ?_, ?_⟩, rfl⟩⟩
  · unfold PAGE_SIZE at hpage
    unfold MBLOCKSIZE
    omega
  · show (k.initial + signed 0).toNat = k.initial
    rw [signed, if_pos (by decide)]
    omega
  · dsimp only
    omega

/-- What an answer of `malloc` should be: nothing, with the blocks as they were, or a block that is given out. -/
def Answered (k : Sbrk) (bs : List Block) (size : ℕ) (h : Heap) (p : Option ℕ) (h' : Heap) : Prop :=
  match p with
  | none => Consistent k bs h' ∧ h'.mem = h.mem
  | some q => ∃ bs', Given k bs size q bs' h'

theorem Ready.begins (hr : Ready k bs h) : Ends (fun _ => False) (onlyIf (h.heapbase = 0) (mallocInit k)) h (fun _ h' =>
    Consistent k bs h' ∧ h'.mem = h.mem) := by
  rw [ends_onlyIf]
  obtain hc | ⟨rfl, hu⟩ := hr
  · have hpos := k.pos
    rw [← hc.base] at hpos
    exact ⟨fun hzero => absurd hzero (Nat.ne_of_gt hpos), fun _ => ⟨hc, rfl⟩⟩
  · exact ⟨fun _ => mallocInit_inits hu, fun hno => absurd hu.heapbase hno⟩

theorem roundSize_lt (size : ℕ) : roundSize size < 2^32 := by
  unfold roundSize MBLOCKSIZE
  have := Nat.mod_lt (size + (8 - 1)) (y := 2^32) (by decide)
  omega

theorem roundSize_dvd (size : ℕ) : roundSize size % MBLOCKSIZE = 0 := Nat.mul_mod_left _ _

/-- After the search a block is taken or more memory is asked for. -/
theorem malloc_searches {reason : Halt → Prop} {Q : Option ℕ → Heap → Prop} (hr : Ready k bs h)
    (htake : ∀ h₁ l b r, Consistent k bs h₁ → bs = l ++ b::r → Fits (roundSize size) b → h₁.mem = h.mem →
      Ends reason (takeBlock (k.initial + extent Block.bytes l) (roundSize size)) h₁ Q)
    (hexpand : ∀ h₁ mh prev, Consistent k bs h₁ → Exhausted k (roundSize size) bs mh prev →
      (∀ c ∈ bs, ¬Fits (roundSize size) c) → h₁.mem = h.mem → Ends reason (expand k mh prev (roundSize size)) h₁ Q) :
    Ends reason (malloc k size) h Q := by
  rw [malloc, ends_bind, ends_get, ends_bind]
  apply hr.begins.mono (fun _ => False.elim)
  rintro _ h₁ ⟨hc, hmem⟩
  have hpos := k.pos
  have htop := hc.top
  rw [ends_bind, ends_get, ends_bind, ends_require, hc.base]
  refine ⟨fun _ => ?_, fun hno => absurd ⟨by omega, by omega, by omega⟩ hno⟩
  rw [ends_bind]
  apply (search_searches hc.headed htop hc.within (by omega)).mono (fun _ => False.elim)
  rintro f h₂ ⟨rfl, ⟨rfl, rfl⟩ | hf⟩
  · exact hexpand h₂ none 0 hc .empty (fun c hmem => absurd hmem List.not_mem_nil) hmem
  · cases hf with
    | block l b r _ hfits => exact htake h₂ l b r hc rfl hfits hmem
    | top l b hno =>
      exact hexpand h₂ _ _ hc (.top l b (hno b (List.mem_append_right _ List.mem_cons_self))) hno hmem

/-- A size rounded up to whole headers, which need not have room in 32 bits. -/
def exactSize (size : ℕ) : ℕ := (size + (MBLOCKSIZE - 1)) / MBLOCKSIZE * MBLOCKSIZE

/-- The bytes that would have to be asked for, whole pages of them. -/
def exactRequest (bs : List Block) (size : ℕ) : ℕ :=
  PAGE_SIZE * ((need bs (exactSize size) + (PAGE_SIZE - 1)) / PAGE_SIZE)

/-- The search finds nothing for the size that it has been rounded to, and `sbrk` does not give what it is asked for. -/
def Refused (k : Sbrk) (bs : List Block) (size : ℕ) : Prop := (∀ b ∈ bs, ¬Fits (roundSize size) b) ∧
  k.grants (k.initial + extent Block.bytes bs) (signed (request bs (roundSize size))) = false

/-- `malloc` ends, with an answer as it should be. -/
def Right (k : Sbrk) (bs : List Block) (size : ℕ) (h : Heap) : Prop :=
  Ends (fun _ => False) (malloc k size) h (Answered k bs size h)

theorem addTop_null (hc : Consistent k bs h) : Ends (fun _ => True) (addTop k prev size) h (fun p _ =>
    p = none → k.grants h.heaptop (signed (roundPage ((MBLOCKSIZE + size) % 2^32))) = false) := by
  rw [addTop, ends_bind]
  apply (mallocSbrk_moves hc _).mono (fun _ => False.elim)
  rintro o h₁ (⟨rfl, hrefused, -⟩ | ⟨rfl, -, -⟩)
  · exact ends_pure.mpr fun _ => hrefused
  · dsimp only
    rw [ends_bind]
    apply (ends_anyhow _ _).imp
    intro _ h₂ _
    rw [ends_bind]
    apply (ends_anyhow _ _).imp
    intro _ h₃ _
    exact ends_pure.mpr nofun

theorem extendTop_null (hc : Consistent k (l ++ [b]) h) :
    Ends (fun _ => True) (extendTop k (k.initial + extent Block.bytes l) size) h (fun p _ =>
      p = none → k.grants h.heaptop (signed (roundPage (size - (b.bytes - MBLOCKSIZE)))) = false) := by
  obtain ⟨-, hat, hpos, hbelow, hwithin⟩ := hc.placed
  have hbytes : b.bytes < 2^32 := by
    unfold userTop at hwithin
    omega
  rw [extendTop, ends_bind, ends_header, hat, mSize_header hbytes hpos, ends_bind, ends_require]
  refine ⟨fun _ => ?_, fun _ => trivial⟩
  rw [ends_bind]
  apply (mallocSbrk_moves hc _).mono (fun _ => False.elim)
  rintro o h₁ (⟨rfl, hrefused, -⟩ | ⟨rfl, -, -⟩)
  · exact ends_pure.mpr fun _ => hrefused
  · dsimp only
    rw [ends_bind]
    apply (ends_anyhow _ _).imp
    intro _ h₂ _
    rw [ends_bind]
    apply (ends_anyhow _ _).imp
    intro _ h₃ _
    exact ends_pure.mpr nofun

theorem expand_null {mh : Option ℕ} (hc : Consistent k bs h) (he : Exhausted k size bs mh prev) (hlt : size < 2^32) :
    Ends (fun _ => True) (expand k mh prev size) h (fun p _ =>
      p = none → k.grants h.heaptop (signed (request bs size)) = false) := by
  cases he with
  | empty => exact addTop_null hc
  | top l b hno =>
    have hat := hc.placed.mem
    rw [request, need_top, expand, ends_bind, ends_header, hat, ends_ite]
    constructor
    · intro hfree
      have hfree : b.inuse = false := hfree
      rw [if_pos hfree, Nat.mod_eq_of_lt (Nat.lt_of_le_of_lt (Nat.sub_le _ _) hlt)]
      exact extendTop_null hc
    · intro hused
      have hused : ¬b.inuse = false := hused
      rw [if_neg hused]
      exact addTop_null hc

/-- Nothing is answered only where more memory has been refused. -/
theorem malloc_null (hr : Ready k bs h) (size : ℕ) :
    Ends (fun _ => True) (malloc k size) h (fun p _ => p = none → Refused k bs size) := by
  apply malloc_searches hr
  · intro h₁ l b r _ _ _ _
    rw [takeBlock, ends_bind]
    apply (ends_anyhow _ _).imp
    intro _ h₂ _
    rw [ends_bind]
    apply (ends_anyhow _ _).imp
    intro _ h₃ _
    exact ends_pure.mpr nofun
  · intro h₁ mh prev hc he hno _
    apply (expand_null hc he (roundSize_lt size)).imp
    intro p h₂ hnull hnone
    refine ⟨hno, ?_⟩
    rw [← hc.top]
    exact hnull hnone

/-- What does not go wrong when it is rounded and asked for is given out, if it is not refused. -/
theorem malloc_gives (hr : Ready k bs h) (hgood : Refused k bs size ∨ size ≤ roundSize size ∧
    ((∃ b ∈ bs, Fits (roundSize size) b) ∨
      need bs (roundSize size) ≤ request bs (roundSize size) ∧ request bs (roundSize size) < 2^31)) :
    Ends (fun _ => False) (malloc k size) h (fun p h' =>
      p = none ∧ Consistent k bs h' ∧ h'.mem = h.mem ∨ Gives k bs size p h') := by
  apply malloc_searches hr
  · rintro h₁ l b r hc rfl hfits hmem
    obtain ⟨hno, -⟩ | ⟨hreq, -⟩ := hgood
    · exact absurd hfits (hno b (List.mem_append_right _ List.mem_cons_self))
    · exact (takeBlock_gives hc (roundSize_dvd size) hfits hreq).imp fun _ _ => .inr
  · intro h₁ mh prev hc he hno hmem
    have hsmall : k.grants h₁.heaptop (signed (request bs (roundSize size))) = false ∨ size ≤ roundSize size ∧
        need bs (roundSize size) ≤ request bs (roundSize size) ∧ request bs (roundSize size) < 2^31 := by
      obtain ⟨-, hrefused⟩ | ⟨hreq, ⟨b, hb, hfits⟩ | hsmall⟩ := hgood
      · rw [hc.top]
        exact .inl hrefused
      · exact absurd hfits (hno b hb)
      · exact .inr ⟨hreq, hsmall⟩
    apply (expand_gives hc he (roundSize_dvd size) (roundSize_lt size) hsmall).imp
    rintro p h₂ (⟨rfl, rfl⟩ | hgives)
    · exact .inl ⟨rfl, hc, hmem⟩
    · exact .inr hgives

theorem malloc_answers (hr : Ready k bs h) (hgood : Refused k bs size ∨ size ≤ roundSize size ∧
    ((∃ b ∈ bs, Fits (roundSize size) b) ∨
      need bs (roundSize size) ≤ request bs (roundSize size) ∧ request bs (roundSize size) < 2^31)) : Right k bs size h := by
  apply (malloc_gives hr hgood).imp
  rintro p h' (⟨rfl, hanswer⟩ | ⟨q, bs', rfl, hgiven, -⟩)
  · exact hanswer
  · exact ⟨bs', hgiven⟩

/-- A block that has been given out is small enough for what had to be asked for. -/
theorem Given.small {q : ℕ} {bs' : List Block} (hg : Given k bs size q bs' h) : exactRequest bs size < 2^31 := by
  obtain ⟨x, b, -, hmem, -, hroom, -⟩ := hg.block
  have hwithin := (places_within hmem).2
  have htop := hg.consistent.top
  have hlimit := hg.consistent.within
  have hbase := (places_within hmem).1
  have hneed := need_le bs (exactSize size)
  have hpage := k.aligned
  have hpos := k.pos
  unfold exactRequest exactSize Block.bytes MBLOCKSIZE PAGE_SIZE userTop at *
  omega

theorem roundSize_exact (hsize : exactSize size < 2^32) : roundSize size = exactSize size ∧ size ≤ roundSize size := by
  unfold roundSize exactSize MBLOCKSIZE at *
  omega

theorem Ready.extent (hr : Ready k bs h) : k.initial + Tilings.extent Block.bytes bs ≤ userTop := by
  obtain hc | ⟨rfl, -⟩ := hr
  · rw [← hc.top]
    exact hc.within
  · have hwithin := (k.within k.initial 0 k.zero).2
    rw [extent_nil]
    omega

/-- `malloc` answers as it should exactly if a free block has room for the size as it was given, or the whole pages
that are lacking come to less than half the address range, or the search finds nothing for the size that it has been
rounded to and `sbrk` refuses what it is then asked for. -/
theorem malloc_right_iff (hr : Ready k bs h) (hsize : size < 2^32) : Right k bs size h ↔
    (∃ b ∈ bs, Fits size b) ∨ exactRequest bs size < 2^31 ∨ Refused k bs size := by
  have hextent := hr.extent
  constructor
  · intro hright
    obtain ⟨p, h', hrun, hanswer⟩ := hright.returns
    cases p with
    | none => exact .inr (.inr ((malloc_null hr size).ok hrun rfl))
    | some q =>
      obtain ⟨bs', hgiven⟩ := hanswer
      exact .inr (.inl hgiven.small)
  · rintro (⟨b, hb, hfree, hroom⟩ | hsmall | hrefused)
    · have hwithin := extent_ge hb
      have hrounded : roundSize size = exactSize size ∧ size ≤ roundSize size :=
        roundSize_exact (by unfold exactSize MBLOCKSIZE userTop at *; omega)
      refine malloc_answers hr (.inr ⟨hrounded.2, .inl ⟨b, hb, hfree, ?_⟩⟩)
      rw [hrounded.1]
      unfold exactSize Block.bytes MBLOCKSIZE at *
      omega
    · have hneed := need_ge bs (exactSize size)
      have hlacking : need bs (exactSize size) < 2^31 := by
        unfold exactRequest PAGE_SIZE at hsmall
        omega
      have hrounded : roundSize size = exactSize size ∧ size ≤ roundSize size :=
        roundSize_exact (by unfold userTop at *; omega)
      have hrequest : request bs (exactSize size) = exactRequest bs size := by
        unfold request roundPage exactRequest PAGE_SIZE at *
        omega
      refine malloc_answers hr (.inr ⟨hrounded.2, .inr ?_⟩)
      rw [hrounded.1, hrequest]
      refine ⟨?_, hsmall⟩
      unfold exactRequest PAGE_SIZE
      omega
    · exact malloc_answers hr (.inl hrefused)

/-- An `sbrk` that gives all that there is, from the second page on. -/
def generous : Sbrk where
  initial := 4096
  grants brk amount := decide (4096 ≤ brk + amount ∧ brk + amount ≤ userTop)
  pos := by decide
  aligned := by decide
  zero := by decide
  within brk amount h := of_decide_eq_true h

/-- The heap of a program that has not called `malloc` yet. -/
def unused : Heap := ⟨0, 0, 4096, fun _ => ⟨0, 0, false, 0, 0⟩⟩

theorem unused_ready : Ready generous [] unused := .inr ⟨rfl, rfl, rfl, rfl⟩

theorem malloc_hundred : Right generous [] 100 unused :=
  (malloc_right_iff unused_ready (by decide)).mpr (.inr (.inl (by decide)))

/-- A request for all addresses is rounded to nothing, and a block without any room is given out for it. -/
theorem malloc_all_tiny : (∃ t : Option ℕ × Heap, malloc generous 4294967295 unused = .ok t ∧
    (t.1 = some 4104 ∧ mSize (t.2.mem 4096) = 0)) ∧ ¬Right generous [] 4294967295 unused := by
  have hrun : ∃ t : Option ℕ × Heap, malloc generous 4294967295 unused = .ok t ∧
      (t.1 = some 4104 ∧ mSize (t.2.mem 4096) = 0) := by decide +kernel
  refine ⟨hrun, fun hright => ?_⟩
  obtain ⟨⟨p, h'⟩, hrun, rfl, -⟩ := hrun
  obtain ⟨bs', hgiven⟩ := hright.ok hrun
  exact absurd hgiven.small (by decide)

end OS161.UserMalloc
