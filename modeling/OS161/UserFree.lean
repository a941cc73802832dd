import OS161.UserMalloc

/-!
# Freeing memory in a user program

A block that is freed is merged with the block after it and the one before it,
where these are free, so that no two free blocks lie next to each other. Over
any calls the heap stays a row of blocks, and the blocks that are live lie
apart.
-/

set_option autoImplicit false

namespace OS161.UserFree

open Function OS161.Aborts OS161.Runs OS161.Tilings OS161.Regions
open OS161.UserHeap OS161.UserMalloc

/-- What 0xdeadbeef leaves in place of a header. -/
def deadbeef : Mheader := ⟨0x1bd5b7dd, 0x1bd5b7dd, true, 3, 3⟩

def mallocDeadbeef (ptr size : ℕ) : Malloc Unit :=
  modify fun h => { h with mem := fun x => if ptr ≤ x ∧ x < ptr + size then deadbeef else h.mem x }

def mallocTrymerge (mh mhnext : ℕ) : Malloc Unit := do
  let a ← header mh
  let b ← header mhnext
  require (a.nextblock = b.prevblock) .errx
  onlyIf (a.inuse = false ∧ b.inuse = false) (do
    let mhnextnext := (mhnext + mNextoff b) % 2^32
    let field := mMkfield ((MBLOCKSIZE + mSize a + MBLOCKSIZE + mSize b) % 2^32)
    setHeader mh fun b => { b with nextblock := field }
    let h ← get
    onlyIf (mhnextnext ≠ h.heaptop) (setHeader mhnextnext fun b => { b with prevblock := field })
    mallocDeadbeef mhnext MBLOCKSIZE)

/-- The block before and the block after one that is free are merged with it. -/
def mergeAround (mh : ℕ) : Malloc Unit := do
  let h ← get
  let b ← header mh
  let mhnext := (mh + mNextoff b) % 2^32
  onlyIf (mhnext ≠ h.heaptop) (mallocTrymerge mh mhnext)
  let b ← header mh
  onlyIf (mh ≠ h.heapbase) (mallocTrymerge ((mh + 2^32 - mPrevoff b) % 2^32) mh)

def free (x : ℕ) : Malloc Unit :=
  if x = 0 then pure ()
  else do
    let h ← get
    require (h.heapbase ≠ 0 ∧ h.heaptop ≠ 0 ∧ h.heapbase ≤ h.heaptop) .errx
    require (h.heapbase ≤ x ∧ x < h.heaptop) .errx
    let mh := (x + 2^32 - MBLOCKSIZE) % 2^32
    let b ← header mh
    require (mOk b) .errx
    require (b.inuse = true) .errx
    setHeader mh fun b => { b with inuse := false }
    mallocDeadbeef ((mh + MBLOCKSIZE) % 2^32) (mSize b)
    mergeAround mh

variable {k : Sbrk} {h h' : Heap} {bs bs' l r fs : List Block} {a b c : Block} {size x : ℕ}

/-- Two blocks that are next to each other, as merging leaves them. -/
def joined (a c : Block) : List Block :=
  if a.inuse = false ∧ c.inuse = false then [⟨a.units + c.units, false⟩] else [a, c]

theorem lastUnits_concat (p : ℕ) (l : List Block) (b : Block) : lastUnits p (l ++ [b]) = b.units := lastUnits_append

/-- What the field of 29 bits has for two blocks together. -/
theorem joined_field (ha : 0 < a.units) (hc : 0 < c.units) (hlt : a.bytes + c.bytes < 2^32) :
    mMkfield ((MBLOCKSIZE + (a.bytes - MBLOCKSIZE) + MBLOCKSIZE + (c.bytes - MBLOCKSIZE)) % 2^32) = a.units + c.units := by
  rw [mMkfield_units (Nat.mod_lt _ (by decide))]
  unfold Block.bytes MBLOCKSIZE at *
  omega

/-- Merging two blocks that are both free makes one of them. -/
theorem mallocTrymerge_merges (hc : Consistent k (l ++ a::c::r) h) : Ends (fun _ => False)
    (mallocTrymerge (k.initial + extent Block.bytes l) (k.initial + extent Block.bytes l + a.bytes)) h
    (fun _ h' => Consistent k (l ++ (joined a c ++ r)) h') := by
  obtain ⟨hat, hposa, hnext, hposc, -⟩ := (headed_append.mp hc.headed).2
  have htop := hc.top
  have hwithin := hc.within
  rw [extent_append, extent_cons, extent_cons] at htop
  generalize hx : k.initial + extent Block.bytes l = x at *
  unfold userTop at hwithin
  have ha : 0 < a.bytes := Nat.mul_pos (by decide) hposa
  have hltc : c.bytes < 2^32 := by omega
  rw [mallocTrymerge, ends_bind, ends_header, hat, ends_bind, ends_header, hnext, ends_bind, ends_require]
  refine ⟨fun _ => ?_, fun hno => hno rfl⟩
  rw [mSize_header (by omega) hposa, mSize_header hltc hposc, mNextoff_header hltc, ends_onlyIf]
  constructor
  · intro hfree
    have hfree' : a.inuse = false ∧ c.inuse = false := hfree
    have hpair : extent Block.bytes [a, c] = a.bytes + c.bytes := by
      rw [extent_cons, extent_cons, extent_nil, Nat.add_zero]
    have hextent : extent Block.bytes [⟨a.units + c.units, false⟩] = extent Block.bytes [a, c] := by
      rw [hpair]
      exact Nat.mul_add _ _ _
    have hone : ({ a.header (lastUnits 0 l) with nextblock := a.units + c.units } : Mheader) =
        Block.header (lastUnits 0 l) ⟨a.units + c.units, false⟩ := by
      rw [Block.header, hfree'.1]
      rfl
    have hpiece : 0 < MBLOCKSIZE ∧ MBLOCKSIZE ≤ c.bytes := ⟨by decide, Nat.le_mul_of_pos_right _ hposc⟩
    have hend : x + (a.bytes + c.bytes) = x + a.bytes + c.bytes := (Nat.add_assoc _ _ _).symm
    have hpos : 0 < a.units + c.units := Nat.add_pos_left hposa _
    rw [joined, if_pos hfree', joined_field hposa hposc (by omega), Nat.mod_eq_of_lt (by omega), ends_bind, ends_setHeader,
      ends_bind, ends_get, ends_bind, ends_onlyIf]
    have hc' : Consistent k (l ++ ([a, c] ++ r)) h := hc
    constructor
    · intro _
      rw [ends_setHeader, mallocDeadbeef, ends_modify]
      dsimp only
      apply hc'.reshape hx hextent ⟨?_, hpos, trivial⟩
      · intro _
        rw [hpair, hend, if_neg (by omega), update_self, update_of_ne (by omega)]
        rfl
      · rw [hpair]
        intro y hy
        rw [if_neg (by omega), update_of_ne (by omega), update_of_ne (by omega)]
      · rw [if_neg (by omega), update_of_ne (by omega), update_self, hat, hone]
    · intro htop'
      rw [mallocDeadbeef, ends_modify]
      dsimp only
      apply hc'.reshape hx hextent ⟨?_, hpos, trivial⟩
      · rw [hpair, hend]
        exact fun hne => absurd hne htop'
      · rw [hpair]
        intro y hy
        rw [if_neg (by omega), update_of_ne (by omega)]
      · rw [if_neg (by omega), update_self, hat, hone]
  · intro hused
    have hused' : ¬(a.inuse = false ∧ c.inuse = false) := hused
    rw [joined, if_neg hused']
    exact hc

/-- What the blocks in use are does not depend on how free ones are put together. -/
theorem places_free {fs' : List Block} (hfree : ∀ c ∈ fs, c.inuse = false) (hfree' : ∀ c ∈ fs', c.inuse = false)
    (hextent : extent Block.bytes fs' = extent Block.bytes fs) (p y : ℕ) (hc : c.inuse = true) :
    (y, c) ∈ places Block.bytes p (l ++ (fs' ++ r)) ↔ (y, c) ∈ places Block.bytes p (l ++ (fs ++ r)) := by
  have hnone : ∀ {us : List Block} {p : ℕ}, (∀ c ∈ us, c.inuse = false) → (y, c) ∉ places Block.bytes p us := by
    intro us p hus hmem
    obtain ⟨l₁, l₂, rfl, -⟩ := mem_places.mp hmem
    rw [hus c (List.mem_append_right _ List.mem_cons_self)] at hc
    exact Bool.noConfusion hc
  simp only [places_append, List.mem_append, hextent, hnone hfree, hnone hfree', false_or]

theorem joined_places (p y : ℕ) (hc : b.inuse = true) :
    (y, b) ∈ places Block.bytes p (l ++ (joined a c ++ r)) ↔ (y, b) ∈ places Block.bytes p (l ++ a::c::r) := by
  by_cases hfree : a.inuse = false ∧ c.inuse = false
  · rw [joined, if_pos hfree]
    have hextent : extent Block.bytes [⟨a.units + c.units, false⟩] = extent Block.bytes [a, c] := by
      simp only [extent_cons, extent_nil, Block.bytes]
      rw [Nat.mul_add]
      omega
    exact places_free (List.forall_mem_cons.mpr ⟨hfree.1, List.forall_mem_singleton.mpr hfree.2⟩)
      (List.forall_mem_singleton.mpr rfl) hextent p y hc
  · rw [joined, if_neg hfree]
    rfl

/-- Around a free block there is none that is free. -/
structure Alone (l r : List Block) (b : Block) : Prop extends Around l r where
  free : b.inuse = false
  last : ∀ c ∈ l.getLast?, c.inuse = true
  room : r = [] → 2 ≤ b.units

theorem Alone.tidy (h : Alone l r b) : Tidy (l ++ b::r) where
  coalesced := List.isChain_append.mpr ⟨h.before, List.isChain_cons.mpr ⟨fun c hc => .inr (h.next c hc), h.after⟩,
    fun c hc _ _ => .inl (h.last c hc)⟩
  top c hc := by
    cases r with
    | nil =>
      obtain rfl : b = c := by simpa using hc
      exact h.room rfl
    | cons d r => exact h.top c (by simpa [List.getLast?_append] using hc)

/-- A free block that has none behind it that is free. -/
structure Closed (r : List Block) (b : Block) : Prop where
  free : b.inuse = false
  after : Coalesced r
  next : ∀ c ∈ r.head?, c.inuse = true
  top : ∀ c ∈ r.getLast?, 2 ≤ c.units
  room : r = [] → 2 ≤ b.units

/-- The blocks in use are the same. -/
def SameUse (k : Sbrk) (bs bs' : List Block) : Prop := ∀ y c, c.inuse = true →
  ((y, c) ∈ places Block.bytes k.initial bs' ↔ (y, c) ∈ places Block.bytes k.initial bs)

theorem mergeUp (hc : Consistent k (l ++ b::r) h) (hfree : b.inuse = false) (hr : Coalesced r)
    (htop : ∀ c ∈ r.getLast?, 2 ≤ c.units) (hroom : r = [] → 2 ≤ b.units) : Ends (fun _ => False)
      (onlyIf ((k.initial + extent Block.bytes l + b.bytes) % 2^32 ≠ h.heaptop)
        (mallocTrymerge (k.initial + extent Block.bytes l) ((k.initial + extent Block.bytes l + b.bytes) % 2^32))) h
      (fun _ h' => ∃ b' r', Consistent k (l ++ b'::r') h' ∧ Closed r' b' ∧ SameUse k (l ++ b::r) (l ++ b'::r')) := by
  have hbelow := hc.placed.below
  have hwithin := hc.within
  have htop' := hc.top
  rw [extent_append, extent_cons] at htop'
  rw [Nat.mod_eq_of_lt (by unfold userTop at hwithin; omega), ends_onlyIf]
  constructor
  · intro hne
    cases r with
    | nil =>
      rw [extent_nil] at htop'
      omega
    | cons c r =>
      apply (mallocTrymerge_merges hc).imp
      intro _ h' hc'
      have hsame : SameUse k (l ++ b::c::r) (l ++ (joined b c ++ r)) := fun y d hd => joined_places k.initial y hd
      obtain ⟨hnext, hr'⟩ := List.isChain_cons.mp hr
      by_cases hcfree : c.inuse = false
      · rw [joined, if_pos ⟨hfree, hcfree⟩] at hc' hsame
        refine ⟨_, _, hc', ⟨rfl, hr', fun d hd => (hnext d hd).resolve_left (by simp [hcfree]), ?_, ?_⟩, hsame⟩
        · intro d hd
          apply htop d
          cases r with
          | nil => exact absurd hd (by simp)
          | cons e r => simpa [List.getLast?_cons_cons] using hd
        · rintro rfl
          exact Nat.le_trans (htop c (by simp)) (Nat.le_add_left _ _)
      · rw [joined, if_neg (fun h => hcfree h.2)] at hc' hsame
        refine ⟨b, c::r, hc', ⟨hfree, hr, fun d hd => ?_, htop, nofun⟩, hsame⟩
        obtain rfl : c = d := by simpa using hd
        simpa using hcfree
  · intro heq
    have hnil : r = [] := by
      cases r with
      | nil => rfl
      | cons c r =>
        have hpos : 0 < c.bytes := Nat.mul_pos (by decide) (hc.headed.pos c (by simp))
        rw [extent_cons] at htop'
        omega
    subst hnil
    exact ⟨b, [], hc, ⟨hfree, List.isChain_nil, nofun, nofun, hroom⟩, fun _ _ _ => Iff.rfl⟩

theorem mergeDown (hc : Consistent k (l ++ b::r) h) (hl : Coalesced l) (hclosed : Closed r b) : Ends (fun _ => False)
    (onlyIf (k.initial + extent Block.bytes l ≠ k.initial)
      (mallocTrymerge ((k.initial + extent Block.bytes l + 2^32 - lastUnits 0 l * MBLOCKSIZE % 2^32) % 2^32)
        (k.initial + extent Block.bytes l))) h
    (fun _ h' => ∃ l' b', Consistent k (l' ++ b'::r) h' ∧ Alone l' r b' ∧ SameUse k (l ++ b::r) (l' ++ b'::r)) := by
  have hwithin := hc.within
  have htop := hc.top
  rw [extent_append] at htop
  obtain ⟨hfree, hafter, hnext, hlast, hroom⟩ := hclosed
  rw [ends_onlyIf]
  obtain rfl | ⟨l, a, rfl⟩ := List.eq_nil_or_concat' l
  · refine ⟨fun hne => absurd rfl hne, fun _ => ⟨[], b, hc, ⟨⟨List.isChain_nil, hafter, hnext, hlast⟩, hfree, nofun, hroom⟩, ?_⟩⟩
    exact fun _ _ _ => Iff.rfl
  · rw [List.append_assoc] at hc
    have hpos : 0 < a.bytes := Nat.mul_pos (by decide) (hc.headed.pos a (by simp))
    obtain ⟨hl', -, hlink⟩ := List.isChain_append.mp hl
    rw [lastUnits_concat, extent_append, extent_cons, extent_nil, Nat.add_zero, ← Nat.add_assoc]
    rw [extent_append, extent_cons, extent_nil] at htop
    have hback : (k.initial + extent Block.bytes l + a.bytes + 2^32 - a.units * MBLOCKSIZE % 2^32) % 2^32 =
        k.initial + extent Block.bytes l := by
      rw [Nat.mul_comm]
      unfold Block.bytes userTop at *
      omega
    refine ⟨fun _ => ?_, fun heq => absurd heq (by omega)⟩
    rw [hback]
    apply (mallocTrymerge_merges hc).imp
    intro _ h' hc'
    have hsame : SameUse k (l ++ a::b::r) (l ++ (joined a b ++ r)) := fun y d hd => joined_places k.initial y hd
    by_cases hafree : a.inuse = false
    · rw [joined, if_pos ⟨hafree, hfree⟩] at hc' hsame
      refine ⟨l, _, hc', ⟨⟨hl', hafter, hnext, hlast⟩, rfl, fun d hd => ?_, fun hnil => ?_⟩, ?_⟩
      · exact (hlink d hd a (by simp)).resolve_right (by simp [hafree])
      · exact Nat.le_trans (hroom hnil) (Nat.le_add_left _ _)
      · rw [List.append_assoc]
        exact hsame
    · rw [joined, if_neg (fun h => hafree h.1)] at hc' hsame
      refine ⟨l ++ [a], b, ?_, ⟨⟨hl, hafter, hnext, hlast⟩, hfree, fun d hd => ?_, hroom⟩, fun _ _ _ => Iff.rfl⟩
      · rw [List.append_assoc]
        exact hc'
      · obtain rfl : a = d := by simpa using hd
        simpa using hafree

theorem mergeAround_merges (hc : Consistent k (l ++ b::r) h) (hfree : b.inuse = false) (hl : Coalesced l)
    (hr : Coalesced r) (htop : ∀ c ∈ r.getLast?, 2 ≤ c.units) (hroom : r = [] → 2 ≤ b.units) : Ends (fun _ => False)
      (mergeAround (k.initial + extent Block.bytes l)) h (fun _ h' => ∃ bs', Consistent k bs' h' ∧ Tidy bs' ∧
        SameUse k (l ++ b::r) bs') := by
  have hbytes : b.bytes < 2^32 := by
    have hbelow := hc.placed.below
    have hwithin := hc.within
    unfold userTop at hwithin
    omega
  rw [mergeAround, ends_bind, ends_get, ends_bind, ends_header, hc.placed.mem, mNextoff_header hbytes, ends_bind]
  apply (mergeUp hc hfree hr htop hroom).imp
  rintro _ h₁ ⟨b₁, r₁, hc₁, hclosed, hsame₁⟩
  rw [ends_bind, ends_header, hc₁.placed.mem, hc.base]
  apply (mergeDown hc₁ hl hclosed).imp
  rintro _ h₂ ⟨l₂, b₂, hc₂, halone, hsame₂⟩
  exact ⟨_, hc₂, halone.tidy, fun y c hinuse => (hsame₂ y c hinuse).trans (hsame₁ y c hinuse)⟩

/-- Wiping the data of a block leaves all headers alone. -/
theorem Consistent.wipe (hc : Consistent k (l ++ b::r) h) : Consistent k (l ++ b::r) { h with
    mem := fun y => if k.initial + extent Block.bytes l + MBLOCKSIZE ≤ y ∧
      y < k.initial + extent Block.bytes l + MBLOCKSIZE + (b.bytes - MBLOCKSIZE) then deadbeef else h.mem y } := by
  obtain ⟨hat, hpos, hrest⟩ := (headed_append.mp hc.headed).2
  have hpiece : 0 < MBLOCKSIZE ∧ MBLOCKSIZE ≤ b.bytes := ⟨by decide, Nat.le_mul_of_pos_right _ hpos⟩
  apply hc.change _ rfl
  · exact fun y hy => if_neg (by omega)
  · refine ⟨?_, hpos, hrest.congr fun y hy _ => if_neg (by omega)⟩
    dsimp only
    rw [if_neg (by omega), hat]

/-- A block is taken out of use, and no other. -/
theorem mark_places (hpos : ∀ c ∈ l ++ b::r, 0 < c.bytes) (y p : ℕ) (hc : c.inuse = true) :
    (y, c) ∈ places Block.bytes p (l ++ ⟨b.units, false⟩::r) ↔
      (y, c) ∈ places Block.bytes p (l ++ b::r) ∧ y ≠ p + extent Block.bytes l := by
  have hbpos : 0 < b.bytes := hpos b (by simp)
  have hbytes : Block.bytes ⟨b.units, false⟩ = b.bytes := rfl
  simp only [places_append, places, List.mem_append, List.mem_cons, Prod.mk.injEq, hbytes]
  constructor
  · rintro (hmem | ⟨-, rfl⟩ | hmem)
    · obtain ⟨l₁, l₂, rfl, rfl⟩ := mem_places.mp hmem
      have := hpos c (by simp)
      rw [extent_append, extent_cons]
      exact ⟨.inl hmem, by omega⟩
    · exact absurd hc Bool.false_ne_true
    · have := (places_within hmem).1
      exact ⟨.inr (.inr hmem), by omega⟩
  · rintro ⟨hmem | ⟨rfl, -⟩ | hmem, hne⟩
    · exact .inl hmem
    · exact absurd rfl hne
    · exact .inr (.inr hmem)

theorem free_frees (hc : Consistent k (l ++ b::r) h) (hinuse : b.inuse = true) (ht : Tidy (l ++ b::r)) :
    Ends (fun _ => False) (free (k.initial + extent Block.bytes l + MBLOCKSIZE)) h (fun _ h' => ∃ bs',
      Consistent k bs' h' ∧ Tidy bs' ∧ ∀ y c, c.inuse = true → ((y, c) ∈ places Block.bytes k.initial bs' ↔
        (y, c) ∈ places Block.bytes k.initial (l ++ b::r) ∧ y ≠ k.initial + extent Block.bytes l)) := by
  have hpos : ∀ c ∈ l ++ b::r, 0 < c.bytes := fun c hmem => Nat.mul_pos (by decide) (hc.headed.pos c hmem)
  have hpiece : 0 < MBLOCKSIZE ∧ MBLOCKSIZE ≤ b.bytes :=
    ⟨by decide, Nat.le_mul_of_pos_right _ hc.placed.pos⟩
  have hat := hc.placed.mem
  have hwithin := hc.within
  have htop := hc.top
  rw [extent_append, extent_cons] at htop
  unfold userTop at hwithin
  obtain ⟨hl, hbr, -⟩ := List.isChain_append.mp ht.coalesced
  have hr := (List.isChain_cons.mp hbr).2
  have hlast : ∀ c ∈ r.getLast?, 2 ≤ c.units := by
    intro c hmem
    apply ht.top c
    cases r with
    | nil => exact absurd hmem (by simp)
    | cons d r => simpa [List.getLast?_append] using hmem
  have hroom : r = [] → 2 ≤ b.units := by
    rintro rfl
    exact ht.top b (by simp)
  -- a block at the top has data, so that its address lies below the top
  have hbelow : k.initial + extent Block.bytes l + MBLOCKSIZE < h.heaptop := by
    cases r with
    | nil =>
      have := hroom rfl
      unfold Block.bytes MBLOCKSIZE at *
      omega
    | cons c r =>
      have := hpos c (by simp)
      rw [extent_cons] at htop
      omega
  have hinitial := k.pos
  rw [free, if_neg (by omega), ends_bind, ends_get, ends_bind, ends_require, hc.base]
  refine ⟨fun _ => ?_, fun hno => absurd ⟨by omega, by omega, by omega⟩ hno⟩
  rw [ends_bind, ends_require]
  refine ⟨fun _ => ?_, fun hno => absurd ⟨by omega, hbelow⟩ hno⟩
  have hback : (k.initial + extent Block.bytes l + MBLOCKSIZE + 2^32 - MBLOCKSIZE) % 2^32 =
      k.initial + extent Block.bytes l := by
    unfold MBLOCKSIZE at *
    omega
  rw [hback, ends_bind, ends_header, hat, ends_bind, ends_require]
  refine ⟨fun _ => ?_, fun hno => hno ⟨rfl, rfl⟩⟩
  rw [ends_bind, ends_require]
  refine ⟨fun _ => ?_, fun hno => hno hinuse⟩
  rw [ends_bind, ends_setHeader, ends_bind, mallocDeadbeef, ends_modify, mSize_header (by omega) hc.placed.pos,
    Nat.mod_eq_of_lt (by omega)]
  have hmarked := Consistent.wipe (hc.mark false)
  apply (mergeAround_merges hmarked rfl hl hr hlast hroom).imp
  rintro _ h' ⟨bs', hc', ht', hsame⟩
  exact ⟨bs', hc', ht', fun y c hused => (hsame y c hused).trans (mark_places hpos y k.initial hused)⟩

/-- The calls that a program makes. -/
inductive Call where
  | malloc (size : ℕ)
  | free (p : ℕ)

/-- The heap, and what has been returned for it and not freed since, with the sizes that were asked for. -/
structure Use where
  heap : Heap
  live : List (ℕ × ℕ)

def step (k : Sbrk) : Call → Use → Except Halt Use
  | .malloc size, u => do
    let (p, heap) ← malloc k size u.heap
    match p with
    | some q => pure ⟨heap, (q, size)::u.live⟩
    | none => pure ⟨heap, u.live⟩
  | .free p, u => do
    let (_, heap) ← free p u.heap
    pure ⟨heap, u.live.filter fun q => q.1 != p⟩

/-- No computation wraps around for a size, and what is freed is live. -/
def Allowed : Call → Use → Prop
  | .malloc size, _ => exactSize size + MBLOCKSIZE + (PAGE_SIZE - 1) < 2^32
  | .free p, u => p ∈ u.live.map Prod.fst

instance decidableAllowed (a : Call) (u : Use) : Decidable (Allowed a u) :=
  match a with
  | .malloc _ => Nat.decLt _ _
  | .free p => inferInstanceAs (Decidable (p ∈ u.live.map Prod.fst))

/-- Where something that is live lies. -/
def Lies (k : Sbrk) (bs : List Block) (p n x : ℕ) (b : Block) : Prop :=
  p = x + MBLOCKSIZE ∧ (x, b) ∈ places Block.bytes k.initial bs ∧ b.inuse = true ∧ n + MBLOCKSIZE ≤ b.bytes

/-- The heap is a tidy row of blocks, and what is live has blocks of its own in it. -/
structure Sane (k : Sbrk) (bs : List Block) (u : Use) : Prop where
  ready : Ready k bs u.heap
  tidy : Tidy bs
  live : ∀ p n, (p, n) ∈ u.live → ∃ x b, Lies k bs p n x b
  distinct : (u.live.map Prod.fst).Nodup

/-- An `sbrk` that fails or extends the heap. -/
def Extending (k : Sbrk) : Prop := ∀ brk amount, k.grants brk amount = true → 0 ≤ amount

theorem malloc_sane {u : Use} (hk : Extending k) (hs : Sane k bs u)
    (hsize : exactSize size + MBLOCKSIZE + (PAGE_SIZE - 1) < 2^32) :
    ∃ u', step k (.malloc size) u = .ok u' ∧ ∃ bs', Sane k bs' u' := by
  have hrounded : roundSize size = exactSize size ∧ size ≤ roundSize size := roundSize_exact (by omega)
  have hgood : Refused k bs size ∨ size ≤ roundSize size ∧ ((∃ b ∈ bs, Fits (roundSize size) b) ∨
      need bs (roundSize size) ≤ request bs (roundSize size) ∧ request bs (roundSize size) < 2^31) := by
    by_cases hfits : ∃ b ∈ bs, Fits (roundSize size) b
    · exact .inr ⟨hrounded.2, .inl hfits⟩
    have hneed := need_le bs (roundSize size)
    rw [← hrounded.1] at hsize
    by_cases hsmall : request bs (roundSize size) < 2^31
    · refine .inr ⟨hrounded.2, .inr ⟨?_, hsmall⟩⟩
      unfold request roundPage PAGE_SIZE at *
      omega
    · refine .inl ⟨fun b hb hfit => hfits ⟨b, hb, hfit⟩, ?_⟩
      by_contra hgrants
      have hnonneg := hk _ _ (by simpa using hgrants)
      rw [signed, if_neg hsmall] at hnonneg
      unfold request roundPage PAGE_SIZE at *
      omega
  obtain ⟨p, h', hrun, hanswer⟩ := (malloc_gives hs.ready hgood).returns
  obtain ⟨rfl, hc, -⟩ | ⟨q, bs', rfl, hgiven, htidy⟩ := hanswer
  · refine ⟨⟨h', u.live⟩, ?_, bs, ⟨.inl hc, hs.tidy, hs.live, hs.distinct⟩⟩
    simp only [step, hrun]
    rfl
  · refine ⟨⟨h', (q, size)::u.live⟩, ?_, bs', ⟨.inl hgiven.consistent, htidy hs.tidy, ?_, ?_⟩⟩
    · simp only [step, hrun]
      rfl
    · intro p n hmem
      obtain hnew | hold := List.mem_cons.mp hmem
      · obtain ⟨rfl, rfl⟩ := Prod.mk.injEq .. ▸ hnew
        obtain ⟨x, b, hp, hplace, hinuse, hroom, -⟩ := hgiven.block
        exact ⟨x, b, hp, hplace, hinuse, hroom⟩
      · obtain ⟨x, b, hp, hplace, hinuse, hroom⟩ := hs.live p n hold
        exact ⟨x, b, hp, hgiven.kept x b hplace hinuse, hinuse, hroom⟩
    · rw [List.map_cons, List.nodup_cons]
      refine ⟨fun hmem => ?_, hs.distinct⟩
      obtain ⟨⟨p, n⟩, hlive, heq⟩ := List.mem_map.mp hmem
      obtain ⟨x, b, hp, hplace, hinuse, -⟩ := hs.live p n hlive
      obtain ⟨x', -, hq, -, -, -, hfree⟩ := hgiven.block
      have hsame : x = x' := by
        dsimp only at heq
        omega
      rw [hfree b (hsame ▸ hplace)] at hinuse
      exact Bool.noConfusion hinuse

theorem free_sane {u : Use} {p : ℕ} (hs : Sane k bs u) (hp : p ∈ u.live.map Prod.fst) :
    ∃ u', step k (.free p) u = .ok u' ∧ ∃ bs', Sane k bs' u' := by
  obtain ⟨⟨p', n⟩, hlive, rfl⟩ := List.mem_map.mp hp
  obtain ⟨x, b, hx, hplace, hinuse, -⟩ := hs.live p' n hlive
  obtain ⟨l, r, rfl, rfl⟩ := mem_places.mp hplace
  have hc : Consistent k (l ++ b::r) u.heap := by
    obtain hc | ⟨hnil, -⟩ := hs.ready
    · exact hc
    · exact absurd hnil (by simp)
  obtain ⟨_, h', hrun, bs', hc', ht', hplaces⟩ := (free_frees hc hinuse hs.tidy).returns
  refine ⟨⟨h', u.live.filter fun q => q.1 != p'⟩, ?_, bs', ⟨.inl hc', ht', ?_, ?_⟩⟩
  · dsimp only
    rw [← hx] at hrun
    simp only [step, hrun]
    rfl
  · intro q m hmem
    obtain ⟨hmem, hne⟩ := List.mem_filter.mp hmem
    obtain ⟨y, c, hq, hplace', hused, hroom⟩ := hs.live q m hmem
    have hother : y ≠ k.initial + extent Block.bytes l := by
      rintro rfl
      simp [hq, hx] at hne
    exact ⟨y, c, hq, (hplaces y c hused).mpr ⟨hplace', hother⟩, hused, hroom⟩
  · exact hs.distinct.sublist (List.filter_sublist.map _)

theorem step_sane (hk : Extending k) (call : Call) (u : Use) (hs : ∃ bs, Sane k bs u) (hallowed : Allowed call u) :
    ∃ u', step k call u = .ok u' ∧ ∃ bs, Sane k bs u' := by
  obtain ⟨bs, hs⟩ := hs
  cases call with
  | malloc size => exact malloc_sane hk hs hallowed
  | free p => exact free_sane hs hallowed

/-- Blocks of a row that start at different places lie apart, and so does what they are used for. -/
theorem Sane.apart {u : Use} (hs : Sane k bs u) : u.live.Pairwise Apart := by
  apply (List.pairwise_map.mp hs.distinct).imp_of_mem
  rintro ⟨p, n⟩ ⟨q, m⟩ hp hq hne
  obtain ⟨x, b, rfl, hplace, -, hroom⟩ := hs.live p n hp
  obtain ⟨y, c, rfl, hplace', -, hroom'⟩ := hs.live q m hq
  have hother : x ≠ y := fun heq => hne (congrArg (· + MBLOCKSIZE) heq)
  apply (apart_of_places hplace hplace' hother).mono
  · dsimp only
    omega
  · dsimp only
    omega

/-- Whatever calls a program makes, if no computation wraps around for the sizes and only what is live is freed: none
ends the program, the heap is a row of blocks whose headers agree, of which no two that are next to each other are
both free, and what is live has blocks with room for it, which lie apart. -/
theorem calls_sane {k : Sbrk} {h : Heap} (hk : Extending k) (hu : Unused k h) {calls : List Call}
    (hallowed : Guarded (step k) Allowed calls ⟨h, []⟩) : ∃ u bs, run (step k) calls ⟨h, []⟩ = .ok u ∧
      Ready k bs u.heap ∧ Coalesced bs ∧ (∀ p n, (p, n) ∈ u.live → ∃ x b, Lies k bs p n x b) ∧ u.live.Pairwise Apart := by
  have hstart : ∃ bs, Sane k bs ⟨h, []⟩ := ⟨[], .inr ⟨rfl, hu⟩, ⟨List.isChain_nil, nofun⟩, nofun, List.nodup_nil⟩
  have hrun : Ensures (fun _ => False) (fun u => ∃ bs, Sane k bs u) (run (step k) calls ⟨h, []⟩) := by
    apply guarded_ensures _ hallowed hstart
    intro call u hs ha
    exact ensures_ok.mpr (step_sane hk call u hs ha)
  obtain ⟨u, hok, bs, hs⟩ := ensures_ok.mp hrun
  exact ⟨u, bs, hok, hs.ready, hs.tidy.coalesced, hs.live, hs.apart⟩

/-- An `sbrk` that extends the heap up to the end of the address space. -/
def growing : Sbrk where
  initial := 4096
  grants brk amount := decide (0 ≤ amount ∧ 4096 ≤ brk + amount ∧ brk + amount ≤ userTop)
  pos := generous.pos
  aligned := generous.aligned
  zero := by decide
  within brk amount h := (of_decide_eq_true h).2

theorem calls_three : ∃ u bs, run (step growing) [.malloc 100, .malloc 20, .free 4104] ⟨unused, []⟩ = .ok u ∧
    Ready growing bs u.heap ∧ Coalesced bs ∧ (∀ p n, (p, n) ∈ u.live → ∃ x b, Lies growing bs p n x b) ∧
    u.live.Pairwise Apart :=
  calls_sane (fun _ _ h => (of_decide_eq_true h).1) ⟨rfl, rfl, rfl⟩ (by decide +kernel)

end OS161.UserFree
