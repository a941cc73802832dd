import Mathlib.Data.List.Chain
import OS161.Aborts
import OS161.Tilings

/-!
# The heap of a user program

The heap is a row of blocks from its base to its top, each with a header of
eight bytes that has the offsets of the headers before and after it. Sizes and
offsets are numbers of 32 bits. Putting a row of blocks in place of another one
of the same extent leaves the heap a row, if the block behind is told what is
before it now.
-/

set_option autoImplicit false

namespace OS161.UserHeap

open Function OS161.Aborts OS161.Tilings

def MBLOCKSIZE : ℕ := 8
def MMAGIC : ℕ := 2
def PAGE_SIZE : ℕ := 4096

/-- Where the addresses of a user program end. -/
def userTop : ℕ := 2^31

/-- A `struct mheader`; the offsets are in units of a header. -/
structure Mheader where
  prevblock : ℕ
  nextblock : ℕ
  inuse : Bool
  magic1 : ℕ
  magic2 : ℕ
  deriving DecidableEq

/-- The variables of `malloc`, what the heap has at the places for headers, and the break of the process. -/
structure Heap where
  heapbase : ℕ
  heaptop : ℕ
  brk : ℕ
  mem : ℕ → Mheader

/-- Why the program ends. -/
inductive Halt where
  | errx
  | assertion
  | unfinished
  deriving DecidableEq

abbrev Malloc := Action Halt Heap

/-- What is relied on of `sbrk`: the break begins at a page, and it is only moved within the address space. -/
structure Sbrk where
  initial : ℕ
  grants : (brk : ℕ) → (amount : ℤ) → Bool
  pos : 0 < initial
  aligned : initial % PAGE_SIZE = 0
  zero : grants initial 0 = true
  within : ∀ (brk : ℕ) (amount : ℤ), grants brk amount = true → initial ≤ brk + amount ∧ brk + amount ≤ userTop

/-- A size as the amount that `sbrk` takes. -/
def signed (n : ℕ) : ℤ := if n < 2^31 then n else n - 2^32

def sbrk (k : Sbrk) (size : ℕ) : Malloc (Option ℕ) := do
  let h ← get
  if k.grants h.brk (signed size) = true then do
    modify fun h => { h with brk := (h.brk + signed size).toNat }
    pure (some h.brk)
  else pure none

def mNextoff (mh : Mheader) : ℕ := mh.nextblock * MBLOCKSIZE % 2^32

def mPrevoff (mh : Mheader) : ℕ := mh.prevblock * MBLOCKSIZE % 2^32

def mSize (mh : Mheader) : ℕ := (mNextoff mh + 2^32 - MBLOCKSIZE) % 2^32

def mOk (mh : Mheader) : Prop := mh.magic1 = MMAGIC ∧ mh.magic2 = MMAGIC

instance decidableMOk (mh : Mheader) : Decidable (mOk mh) := inferInstanceAs (Decidable (_ ∧ _))

/-- What a field of 29 bits has for an offset. -/
def mMkfield (off : ℕ) : ℕ := off / MBLOCKSIZE % 2^29

/-- The header at an address. -/
def header (mh : ℕ) : Malloc Mheader := do
  let h ← get
  pure (h.mem mh)

def setHeader (mh : ℕ) (g : Mheader → Mheader) : Malloc Unit :=
  modify fun h => { h with mem := update h.mem mh (g (h.mem mh)) }

/-- The header of a new block behind `size` bytes of another one. -/
def mallocSplit (mh size : ℕ) : Malloc Unit := do
  require (size % MBLOCKSIZE = 0) .errx
  let old ← header mh
  onlyIf (2*MBLOCKSIZE ≤ (mSize old + 2^32 - size) % 2^32) (do
    let mhnext := (mh + mNextoff old) % 2^32
    setHeader mh fun b => { b with nextblock := mMkfield ((size + MBLOCKSIZE) % 2^32) }
    let new ← header mh
    let mhnew := (mh + mNextoff new) % 2^32
    require (mhnew ≠ mhnext) .errx
    let field := mMkfield ((mSize old + 2^32 - size) % 2^32)
    setHeader mhnew fun _ => ⟨mMkfield ((size + MBLOCKSIZE) % 2^32), field, false, MMAGIC, MMAGIC⟩
    let h ← get
    onlyIf (mhnext ≠ h.heaptop) (setHeader mhnext fun b => { b with prevblock := field }))

/-- A block of the heap, with its header, in units of a header. -/
structure Block where
  units : ℕ
  inuse : Bool
  deriving DecidableEq

def Block.bytes (b : Block) : ℕ := MBLOCKSIZE * b.units

/-- The header that a block has behind one of `prev` units. -/
def Block.header (prev : ℕ) (b : Block) : Mheader := ⟨prev, b.units, b.inuse, MMAGIC, MMAGIC⟩

/-- A row of blocks has its headers: each block has the size of the one before it. -/
def Headed (mem : ℕ → Mheader) : (a prev : ℕ) → List Block → Prop
  | _, _, [] => True
  | a, prev, b::bs => mem a = b.header prev ∧ 0 < b.units ∧ Headed mem (a + b.bytes) b.units bs

/-- The size of the last block of a row. -/
def lastUnits : ℕ → List Block → ℕ
  | prev, [] => prev
  | _, b::bs => lastUnits b.units bs

/-- The blocks `bs` are laid out from the base of the heap to its top. -/
structure Consistent (k : Sbrk) (bs : List Block) (h : Heap) : Prop where
  base : h.heapbase = k.initial
  headed : Headed h.mem k.initial 0 bs
  top : h.heaptop = k.initial + extent Block.bytes bs
  brk : h.brk = h.heaptop
  within : h.heaptop ≤ userTop

variable {k : Sbrk} {h h' : Heap} {bs l r : List Block} {b c : Block} {mem mem' : ℕ → Mheader} {a prev size : ℕ}
  {reason : Halt → Prop}

theorem headed_append : Headed mem a prev (l ++ r) ↔
    Headed mem a prev l ∧ Headed mem (a + extent Block.bytes l) (lastUnits prev l) r := by
  induction l generalizing a prev with
  | nil => simp [Headed, lastUnits]
  | cons b l ih => simp only [List.cons_append, Headed, ih, extent_cons, lastUnits, Nat.add_assoc, and_assoc]

theorem lastUnits_append : lastUnits prev (l ++ r) = lastUnits (lastUnits prev l) r := by
  induction l generalizing prev with
  | nil => rfl
  | cons b l ih => exact ih

/-- The headers of a row lie within its extent. -/
theorem Headed.congr (hheaded : Headed mem a prev bs)
    (hsame : ∀ x, a ≤ x → x < a + extent Block.bytes bs → mem' x = mem x) : Headed mem' a prev bs := by
  induction bs generalizing a prev with
  | nil => trivial
  | cons b bs ih =>
    obtain ⟨hat, hpos, hrest⟩ := hheaded
    have hbytes : 0 < b.bytes := Nat.mul_pos (by decide) hpos
    rw [extent_cons] at hsame
    refine ⟨?_, hpos, ih hrest fun x hx hlt => hsame x (by omega) (by omega)⟩
    rw [hsame a (by omega) (by omega), hat]

theorem mNextoff_header (hb : b.bytes < 2^32) : mNextoff (b.header prev) = b.bytes := by
  unfold Block.bytes at *
  rw [mNextoff, Block.header, Nat.mul_comm, Nat.mod_eq_of_lt hb]

theorem mSize_header (hb : b.bytes < 2^32) (hpos : 0 < b.units) : mSize (b.header prev) = b.bytes - MBLOCKSIZE := by
  rw [mSize, mNextoff_header hb]
  unfold Block.bytes MBLOCKSIZE at *
  omega

theorem mMkfield_units {n : ℕ} (hn : n < 2^32) : mMkfield n = n / MBLOCKSIZE := by
  unfold mMkfield MBLOCKSIZE
  omega

theorem ends_header {Q : Mheader → Heap → Prop} {x : ℕ} : Ends reason (header x) h Q ↔ Q (h.mem x) h := by
  rw [header, ends_bind, ends_get, ends_pure]

/-- The block at a place of a consistent heap. -/
structure Placed (k : Sbrk) (l : List Block) (b : Block) (r : List Block) (h : Heap) (x : ℕ) : Prop where
  place : x = k.initial + extent Block.bytes l
  mem : h.mem x = b.header (lastUnits 0 l)
  pos : 0 < b.units
  below : x + b.bytes ≤ h.heaptop
  top : h.heaptop ≤ userTop

theorem Consistent.placed (hc : Consistent k (l ++ b::r) h) : Placed k l b r h (k.initial + extent Block.bytes l) := by
  obtain ⟨-, hat, hpos, -⟩ := headed_append.mp hc.headed
  refine ⟨rfl, hat, hpos, ?_, hc.within⟩
  rw [hc.top, extent_append, extent_cons]
  omega

/-- The first block of a row is told what is before it. -/
theorem Headed.relink {prev' : ℕ} (hheaded : Headed mem a prev bs)
    (hfirst : bs ≠ [] → mem' a = { mem a with prevblock := prev' }) (hsame : ∀ x, a < x → mem' x = mem x) :
    Headed mem' a prev' bs := by
  cases bs with
  | nil => trivial
  | cons c bs =>
    obtain ⟨hat, hpos, hrest⟩ := hheaded
    have hbytes : 0 < c.bytes := Nat.mul_pos (by decide) hpos
    refine ⟨?_, hpos, hrest.congr fun x hx _ => hsame x (by omega)⟩
    rw [hfirst (List.cons_ne_nil c bs), hat]
    rfl

/-- What becomes of a block that is split. -/
def cut (size : ℕ) (b : Block) : List Block :=
  if b.bytes < size + 3*MBLOCKSIZE then [b]
  else [⟨size / MBLOCKSIZE + 1, b.inuse⟩, ⟨b.units - (size / MBLOCKSIZE + 1), false⟩]

/-- What is done from a block on leaves the blocks before it alone. -/
theorem Consistent.rebuild {m m' : List Block} (hc : Consistent k (l ++ m) h)
    (hheaded : Headed h'.mem (k.initial + extent Block.bytes l) (lastUnits 0 l) m') (hbase : h'.heapbase = h.heapbase)
    (htop : h'.heaptop = k.initial + extent Block.bytes l + extent Block.bytes m') (hbrk : h'.brk = h'.heaptop)
    (hwithin : h'.heaptop ≤ userTop) (hsame : ∀ x < k.initial + extent Block.bytes l, h'.mem x = h.mem x) :
    Consistent k (l ++ m') h' where
  base := hbase.trans hc.base
  headed := by
    rw [headed_append]
    exact ⟨(headed_append.mp hc.headed).1.congr fun x _ hlt => hsame x hlt, hheaded⟩
  top := by rw [extent_append, ← Nat.add_assoc, htop]
  brk := hbrk
  within := hwithin

/-- Only headers are changed. -/
theorem Consistent.change {m m' : List Block} (hc : Consistent k (l ++ m) h)
    (hheaded : Headed mem' (k.initial + extent Block.bytes l) (lastUnits 0 l) m')
    (hextent : extent Block.bytes m' = extent Block.bytes m)
    (hsame : ∀ x < k.initial + extent Block.bytes l, mem' x = h.mem x) :
    Consistent k (l ++ m') { h with mem := mem' } := by
  refine hc.rebuild hheaded rfl ?_ hc.brk hc.within hsame
  rw [hextent, Nat.add_assoc, ← extent_append]
  exact hc.top

theorem ends_setHeader {Q : Unit → Heap → Prop} {x : ℕ} {g : Mheader → Mheader} :
    Ends reason (setHeader x g) h Q ↔ Q () { h with mem := update h.mem x (g (h.mem x)) } := by
  rw [setHeader, ends_modify]

/-- Blocks in the middle are replaced by others of the same extent, and the block behind them is told. -/
theorem Consistent.reshape {m m' : List Block} {x : ℕ} (hc : Consistent k (l ++ (m ++ r)) h)
    (hx : k.initial + extent Block.bytes l = x) (hextent : extent Block.bytes m' = extent Block.bytes m)
    (hheaded : Headed mem' x (lastUnits 0 l) m')
    (hnext : x + extent Block.bytes m ≠ h.heaptop → mem' (x + extent Block.bytes m) =
      { h.mem (x + extent Block.bytes m) with prevblock := lastUnits (lastUnits 0 l) m' })
    (hsame : ∀ y, y < x ∨ x + extent Block.bytes m < y → mem' y = h.mem y) :
    Consistent k (l ++ (m' ++ r)) { h with mem := mem' } := by
  have htop := hc.top
  rw [extent_append, extent_append] at htop
  have hrest := (headed_append.mp (headed_append.mp hc.headed).2).2
  rw [hx] at hrest
  apply hc.change
  · rw [hx, headed_append, hextent]
    refine ⟨hheaded, hrest.relink (fun hne => hnext ?_) fun y hy => hsame y (.inr hy)⟩
    -- a block that has one behind it does not end at the top
    cases r with
    | nil => exact absurd rfl hne
    | cons c r =>
      have hpos : 0 < c.bytes := Nat.mul_pos (by decide) hrest.2.1
      rw [extent_cons] at htop
      omega
  · rw [extent_append, extent_append, hextent]
  · rw [hx]
    exact fun y hy => hsame y (.inl hy)

/-- The pieces of a block that is split are as big as it was, and the first one has room for the size. -/
theorem pieces_bytes (hsize : size % MBLOCKSIZE = 0) (hbig : size + 3*MBLOCKSIZE ≤ b.bytes) :
    Block.bytes ⟨size / MBLOCKSIZE + 1, b.inuse⟩ = size + MBLOCKSIZE ∧
      Block.bytes ⟨b.units - (size / MBLOCKSIZE + 1), false⟩ = b.bytes - (size + MBLOCKSIZE) := by
  unfold Block.bytes MBLOCKSIZE at *
  dsimp only
  omega

theorem pieces_pos (hbig : size + 3*MBLOCKSIZE ≤ b.bytes) :
    0 < size / MBLOCKSIZE + 1 ∧ 0 < b.units - (size / MBLOCKSIZE + 1) := by
  unfold Block.bytes MBLOCKSIZE at *
  omega

/-- What the fields of 29 bits have for the pieces. -/
theorem pieces_fields (hsize : size % MBLOCKSIZE = 0) (hbig : size + 3*MBLOCKSIZE ≤ b.bytes) (hlt : b.bytes < 2^32) :
    mMkfield ((size + MBLOCKSIZE) % 2^32) = size / MBLOCKSIZE + 1 ∧
      mMkfield ((b.bytes - MBLOCKSIZE + 2^32 - size) % 2^32) = b.units - (size / MBLOCKSIZE + 1) := by
  rw [mMkfield_units (Nat.mod_lt _ (by decide)), mMkfield_units (Nat.mod_lt _ (by decide))]
  unfold Block.bytes MBLOCKSIZE at *
  omega

/-- A block is split if what is left of it has room for a header and more. -/
theorem mallocSplit_splits (hc : Consistent k (l ++ b::r) h) (hsize : size % MBLOCKSIZE = 0)
    (hroom : size + MBLOCKSIZE ≤ b.bytes) : Ends (fun _ => False)
      (mallocSplit (k.initial + extent Block.bytes l) size) h (fun _ h' => Consistent k (l ++ (cut size b ++ r)) h') := by
  obtain ⟨-, hat, hpos, hbelow, hwithin⟩ := hc.placed
  generalize hx : k.initial + extent Block.bytes l = x at *
  unfold userTop at hwithin
  have hlt : b.bytes < 2^32 := by omega
  rw [mallocSplit, ends_bind, ends_require]
  refine ⟨fun _ => ?_, fun hno => hno hsize⟩
  rw [ends_bind, ends_header, hat, mSize_header hlt hpos, ends_onlyIf]
  constructor
  · intro hleft
    have hbig : size + 3*MBLOCKSIZE ≤ b.bytes := by
      unfold MBLOCKSIZE at *
      omega
    have hone : 0 < MBLOCKSIZE := by decide
    obtain ⟨hpos₁, hpos₂⟩ := pieces_pos hbig
    obtain ⟨hbytes₁, hbytes₂⟩ := pieces_bytes hsize hbig
    obtain ⟨hfield₁, hfield₂⟩ := pieces_fields hsize hbig hlt
    have hextent : extent Block.bytes [⟨size / MBLOCKSIZE + 1, b.inuse⟩, ⟨b.units - (size / MBLOCKSIZE + 1), false⟩] =
        extent Block.bytes [b] := by
      simp only [extent_cons, extent_nil]
      omega
    have hsingle : extent Block.bytes [b] = b.bytes := Nat.add_zero _
    have hfirst : ({ b.header (lastUnits 0 l) with nextblock := mMkfield ((size + MBLOCKSIZE) % 2^32) } : Mheader) =
        Block.header (lastUnits 0 l) ⟨size / MBLOCKSIZE + 1, b.inuse⟩ := by
      rw [hfield₁]
      rfl
    have hnew : (x + (size + MBLOCKSIZE)) % 2^32 = x + (size + MBLOCKSIZE) := Nat.mod_eq_of_lt (by omega)
    have hnext : (x + b.bytes) % 2^32 = x + b.bytes := Nat.mod_eq_of_lt (by omega)
    rw [ends_bind, ends_setHeader, ends_bind, ends_header]
    dsimp only
    rw [update_self, hat, hfirst, mNextoff_header (by omega), mNextoff_header hlt, hbytes₁, hfield₁, hfield₂, hnew, hnext,
      ends_bind, ends_require, cut, if_neg (Nat.not_lt.mpr hbig)]
    refine ⟨fun _ => ?_, fun hno => hno (by omega)⟩
    rw [ends_bind, ends_setHeader, ends_bind, ends_get, ends_onlyIf]
    constructor
    · intro _
      rw [ends_setHeader]
      dsimp only
      apply hc.reshape hx hextent ⟨?_, hpos₁, ?_, hpos₂, trivial⟩
      · intro _
        rw [hsingle, update_self, update_of_ne (by omega), update_of_ne (by omega)]
        rfl
      · rw [hsingle]
        intro y hy
        rw [update_of_ne (by omega), update_of_ne (by omega), update_of_ne (by omega)]
      · rw [update_of_ne (by omega), update_of_ne (by omega), update_self]
      · rw [hbytes₁, update_of_ne (by omega), update_self]
        rfl
    · intro htop
      dsimp only
      apply hc.reshape hx hextent ⟨?_, hpos₁, ?_, hpos₂, trivial⟩
      · rw [hsingle]
        exact fun hne => absurd hne htop
      · rw [hsingle]
        intro y hy
        rw [update_of_ne (by omega), update_of_ne (by omega)]
      · rw [update_of_ne (by omega), update_self]
      · rw [hbytes₁, update_self]
        rfl
  · intro hsmall
    rw [cut, if_pos (by unfold MBLOCKSIZE at *; omega)]
    exact hc

theorem Headed.pos (hheaded : Headed mem a prev bs) : ∀ b ∈ bs, 0 < b.units := by
  induction bs generalizing a prev with
  | nil => exact fun b hb => absurd hb List.not_mem_nil
  | cons c bs ih => exact List.forall_mem_cons.mpr ⟨hheaded.2.1, ih hheaded.2.2⟩

/-- A block is marked. -/
theorem Consistent.mark (hc : Consistent k (l ++ b::r) h) (inuse : Bool) :
    Consistent k (l ++ ⟨b.units, inuse⟩::r) { h with
      mem := update h.mem (k.initial + extent Block.bytes l)
        { h.mem (k.initial + extent Block.bytes l) with inuse := inuse } } := by
  obtain ⟨hat, hpos, hrest⟩ := (headed_append.mp hc.headed).2
  have hbytes : 0 < b.bytes := Nat.mul_pos (by decide) hpos
  apply hc.change
  · refine ⟨?_, hpos, hrest.congr fun x hx _ => update_of_ne (by omega) _ _⟩
    rw [update_self, hat]
    rfl
  · rw [extent_cons, extent_cons]
    rfl
  · exact fun x hx => update_of_ne (by omega) _ _

theorem cut_cases (hsize : size % MBLOCKSIZE = 0) (hroom : size + MBLOCKSIZE ≤ b.bytes) :
    ∃ u rest, cut size b = u::rest ∧ u.inuse = b.inuse ∧ size + MBLOCKSIZE ≤ u.bytes ∧
      (∀ c ∈ rest, c.inuse = false) ∧ extent Block.bytes (cut size b) = b.bytes := by
  unfold cut
  split_ifs with hsmall
  · exact ⟨b, [], rfl, rfl, hroom, fun c hc => absurd hc List.not_mem_nil, Nat.add_zero _⟩
  · refine ⟨_, _, rfl, rfl, ?_, ?_, ?_⟩
    · unfold Block.bytes MBLOCKSIZE at *
      dsimp only
      omega
    · intro c hc
      rw [List.mem_singleton.mp hc]
    · simp only [extent_cons, extent_nil]
      unfold Block.bytes MBLOCKSIZE at *
      dsimp only
      omega

/-- No two blocks that are next to each other are both free. -/
def Coalesced (bs : List Block) : Prop := bs.IsChain fun b c => b.inuse = true ∨ c.inuse = true

/-- A row that is coalesced, and whose block at the top has room for something. -/
structure Tidy (bs : List Block) : Prop where
  coalesced : Coalesced bs
  top : ∀ b ∈ bs.getLast?, 2 ≤ b.units

/-- What lies around a free block. -/
structure Around (l r : List Block) : Prop where
  before : Coalesced l
  after : Coalesced r
  next : ∀ c ∈ r.head?, c.inuse = true
  top : ∀ c ∈ r.getLast?, 2 ≤ c.units

theorem Tidy.around (ht : Tidy (l ++ b::r)) (hfree : b.inuse = false) : Around l r ∧ (r = [] → 2 ≤ b.units) := by
  obtain ⟨hl, hbr, -⟩ := List.isChain_append.mp ht.coalesced
  obtain ⟨hnext, hr⟩ := List.isChain_cons.mp hbr
  refine ⟨⟨hl, hr, fun c hc => (hnext c hc).resolve_left (by simp [hfree]), fun c hc => ht.top c ?_⟩, ?_⟩
  · cases r with
    | nil => exact absurd hc (by simp)
    | cons d r => simpa [List.getLast?_append] using hc
  · rintro rfl
    exact ht.top b (by simp)

theorem around_top (ht : Tidy l) : Around l [] :=
  ⟨ht.coalesced, List.isChain_nil, fun c hc => absurd hc (by simp), fun c hc => absurd hc (by simp)⟩

/-- Free blocks that are made into one that is given out leave the row tidy. -/
theorem Around.tidy {n : ℕ} (ha : Around l r) (hn : r = [] → 2 ≤ n) : Tidy (l ++ (cut size ⟨n, true⟩ ++ r)) := by
  have hjoin : ∀ (u : Block) (rest : List Block), u.inuse = true → Coalesced (u::rest) → Coalesced (l ++ (u::rest)) := by
    intro u rest hu hrest
    refine List.isChain_append.mpr ⟨ha.before, hrest, fun x _ y hy => .inr ?_⟩
    obtain rfl : u = y := by simpa using hy
    exact hu
  by_cases hsmall : Block.bytes ⟨n, true⟩ < size + 3*MBLOCKSIZE
  · rw [cut, if_pos hsmall]
    refine ⟨hjoin _ _ rfl (List.isChain_cons.mpr ⟨fun c hc => .inl rfl, ha.after⟩), fun b hb => ?_⟩
    cases r with
    | nil =>
      obtain rfl : ⟨n, true⟩ = b := by simpa using hb
      exact hn rfl
    | cons c r => exact ha.top b (by simpa [List.getLast?_append] using hb)
  · rw [cut, if_neg hsmall]
    refine ⟨hjoin _ _ rfl (List.isChain_cons.mpr ⟨fun c hc => .inl rfl, ?_⟩), fun b hb => ?_⟩
    · exact List.isChain_cons.mpr ⟨fun c hc => .inr (ha.next c hc), ha.after⟩
    · cases r with
      | nil =>
        obtain rfl : ⟨n - (size / MBLOCKSIZE + 1), false⟩ = b := by simpa [List.getLast?_append] using hb
        unfold Block.bytes MBLOCKSIZE at *
        dsimp only at *
        omega
      | cons c r => exact ha.top b (by simpa [List.getLast?_append] using hb)

theorem cut_mark (size : ℕ) (b : Block) (inuse : Bool) : ∃ u rest, cut size b = u::rest ∧
    cut size ⟨b.units, inuse⟩ = ⟨u.units, inuse⟩::rest := by
  by_cases hsmall : b.bytes < size + 3*MBLOCKSIZE
  · exact ⟨b, [], if_pos hsmall, if_pos hsmall⟩
  · exact ⟨_, _, if_neg hsmall, if_neg hsmall⟩

/-- A block that has been found is given out. -/
theorem extent_ge (hb : b ∈ bs) : b.bytes ≤ extent Block.bytes bs := by
  obtain ⟨l, r, rfl⟩ := List.append_of_mem hb
  rw [extent_append, extent_cons]
  omega


end OS161.UserHeap
