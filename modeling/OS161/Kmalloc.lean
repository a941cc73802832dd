import OS161.Links
import OS161.PhysicalMemory
import OS161.Runs

/-!
# The subpage allocator

`kmalloc.c` serves small requests from pages cut into blocks of one size. The
free blocks of a page are linked through their first words; a `pageref` holds
the page's address, the type of its blocks, the head of the free list and its
length. The pagerefs are linked into two lists, one of all of them and one for
each block type, and themselves come from pages that are handed out by bitmap.

Every section under `kmalloc_spinlock` is one step, taken by one of any number
of threads. The lock is not held during `alloc_kpages` and `free_kpages`, so
what a call has come to by then is part of the state. The pages `alloc_kpages`
yields are an input. Page addresses are in kseg0, where no sum of such an
address and an offset into the page leaves 32 bits.
-/

set_option autoImplicit false

namespace OS161.Kmalloc

open Function Links PhysicalMemory

def sizes : List ℕ := [16, 32, 64, 128, 256, 512, 1024, 2048]

def nsizes : ℕ := 8

def largestSubpageSize : ℕ := 2048

def invalidOffset : ℕ := 0xffff

def sizeofPageref : ℕ := 16

def npagerefsPerPage : ℕ := 256

def inuseWords : ℕ := 8

def numPagerefpages : ℕ := 16

def totalPagerefs : ℕ := 4096

/-- The entry `sizes[k]`. -/
def sizeOf (k : ℕ) : ℕ := sizes.getD k 0

/-- Subtraction of addresses, in 32 bits. -/
def sub32 (a b : ℕ) : ℕ := (a + 2 ^ 32 - b) % 2 ^ 32

/-- A pointer read from memory. -/
def pointer (w : ℕ) : Option ℕ := if w = 0 then none else some w

/-- A pointer written to memory. -/
def word : Option ℕ → ℕ
  | none => 0
  | some a => a

/-- A `struct pageref`; pagerefs are named by their addresses. -/
structure Pageref where
  nextSamesize : Option ℕ
  nextAll : Option ℕ
  pageaddrAndBlocktype : ℕ
  freelistOffset : ℕ
  nfree : ℕ
deriving DecidableEq

/-- `PR_PAGEADDR`, the part under `PAGE_FRAME`. -/
def Pageref.pageaddr (pr : Pageref) : ℕ := pr.pageaddrAndBlocktype / pageSize * pageSize

/-- `PR_BLOCKTYPE`, the part outside of `PAGE_FRAME`. -/
def Pageref.blocktype (pr : Pageref) : ℕ := pr.pageaddrAndBlocktype % pageSize

def mkpab (pa blk : ℕ) : ℕ := pa / pageSize * pageSize + blk % pageSize

/-- A `struct kheap_root`. The page is 0 as long as there is none. -/
structure KheapRoot where
  page : ℕ
  pagerefsInuse : ℕ → Bool
  numinuse : ℕ

/-- Why a step is not taken or the kernel stops. -/
inductive Stop where
  | notReady
  | assertion
  | endless
  | pagelessRoot
deriving DecidableEq

/--
Where a thread is between its sections. In `subpage_kmalloc` it may want a
page or have got one; in `allocpagerefpage` it may want a page for the root it
took a pageref of, have got one, have one too many or have given that back.
Last, it may have a page to give back before it returns.
-/
inductive Phase where
  | idle
  | pageWanted (blktype sz : ℕ)
  | pageGot (blktype sz prpage : ℕ)
  | refPageWanted (blktype sz prpage whichroot j : ℕ)
  | refPageGot (blktype sz prpage whichroot j va : ℕ)
  | refPageExtra (blktype sz prpage whichroot j va : ℕ)
  | refPageBack (blktype sz prpage whichroot j : ℕ)
  | giving (prpage : ℕ)
deriving DecidableEq

/--
The allocator, its memory and its threads. `held` are the pages obtained from
`alloc_kpages` and not given back; `live` are the blocks returned and not yet
freed, with the sizes asked for.
-/
structure Heap (T : Type*) where
  refs : ℕ → Pageref
  mem : ℕ → ℕ
  kheaproots : ℕ → KheapRoot
  sizebases : ℕ → Option ℕ
  allbase : Option ℕ
  threads : T → Phase
  held : List ℕ
  live : List (ℕ × ℕ)

inductive Act (T : Type*) where
  | subpageKmalloc (t : T) (sz : ℕ)
  | allocKpages (t : T) (va : ℕ)
  | resume (t : T)
  | subpageKfree (t : T) (ptr : ℕ)
  | store (a v : ℕ)

variable {T : Type*} [DecidableEq T]

def Heap.setPhase (s : Heap T) (t : T) (p : Phase) : Heap T :=
  { s with threads := update s.threads t p }

def Heap.setRef (s : Heap T) (r : ℕ) (pr : Pageref) : Heap T :=
  { s with refs := update s.refs r pr }

def Heap.setRoot (s : Heap T) (w : ℕ) (root : KheapRoot) : Heap T :=
  { s with kheaproots := update s.kheaproots w root }

omit [DecidableEq T] in
@[simp] theorem setRoot_kheaproots (s : Heap T) (w : ℕ) (root : KheapRoot) :
    (s.setRoot w root).kheaproots = update s.kheaproots w root := rfl

@[simp] theorem setPhase_kheaproots (s : Heap T) (t : T) (p : Phase) :
    (s.setPhase t p).kheaproots = s.kheaproots := rfl

@[simp] theorem setPhase_threads (s : Heap T) (t : T) (p : Phase) :
    (s.setPhase t p).threads = update s.threads t p := rfl

/-- The first type whose blocks are large enough; `subpage_kmalloc` panics if there is none. -/
def blocktype (clientsz : ℕ) : Option ℕ :=
  (List.range nsizes).find? (fun i => decide (clientsz ≤ sizeOf i))

/-- The first pageref that is not in use: the words in order, full ones skipped, and the bits of each. -/
def KheapRoot.firstUnused (root : KheapRoot) : Option ℕ :=
  (List.range inuseWords).findSome? (fun i =>
    ((List.range 32).find? (fun j => !root.pagerefsInuse (i * 32 + j))).map (fun j => i * 32 + j))

/-- The loop of `allocpageref` over the roots. -/
def Heap.unusedPageref (s : Heap T) : Option (ℕ × ℕ) :=
  (List.range numPagerefpages).findSome? (fun w =>
    if npagerefsPerPage ≤ (s.kheaproots w).numinuse then none
    else (s.kheaproots w).firstUnused.map (fun j => (w, j)))

def Heap.takePageref (s : Heap T) (w j : ℕ) : Heap T :=
  s.setRoot w { s.kheaproots w with
    pagerefsInuse := update (s.kheaproots w).pagerefsInuse j true
    numinuse := (s.kheaproots w).numinuse + 1 }

omit [DecidableEq T] in
@[simp] theorem takePageref_page (s : Heap T) (w j x : ℕ) :
    ((s.takePageref w j).kheaproots x).page = (s.kheaproots x).page := by
  by_cases hx : x = w
  · simp [Heap.takePageref, hx]
  · simp [Heap.takePageref, hx]

/-- The address `&root->page->refs[j]`. -/
def Heap.refAddr (s : Heap T) (w j : ℕ) : ℕ := (s.kheaproots w).page + j * sizeofPageref

/-- The loop of `freepageref`, over the roots that are left to look at. -/
def Heap.freepagerefFrom (s : Heap T) (p : ℕ) : List ℕ → Except Stop (Heap T)
  | [] => .error .assertion
  | w::ws =>
    let root := s.kheaproots w
    if root.page = 0 then
      if root.numinuse = 0 then s.freepagerefFrom p ws else .error .pagelessRoot
    else if root.page ≤ p ∧ (p - root.page) / sizeofPageref < npagerefsPerPage then
      let j := (p - root.page) / sizeofPageref
      if root.pagerefsInuse j = true ∧ 0 < root.numinuse then
        .ok (s.setRoot w { root with
          pagerefsInuse := update root.pagerefsInuse j false
          numinuse := root.numinuse - 1 })
      else .error .assertion
    else s.freepagerefFrom p ws

def Heap.freepageref (s : Heap T) (p : ℕ) : Except Stop (Heap T) :=
  s.freepagerefFrom p (List.range numPagerefpages)

/-- The loop of `remove_lists` over the pages of one size. -/
def Heap.removeSamesize (s : Heap T) (r blktype : ℕ) : Except Stop (Heap T) :=
  match seek (fun q => (s.refs q).nextSamesize) (s.sizebases blktype) r (totalPagerefs + 1) none with
  | none => .error .endless
  | some none => .ok s
  | some (some none) => .ok { s with sizebases := update s.sizebases blktype (s.refs r).nextSamesize }
  | some (some (some g)) => .ok (s.setRef g { s.refs g with nextSamesize := (s.refs r).nextSamesize })

/-- The loop of `remove_lists` over all pages. -/
def Heap.removeAll (s : Heap T) (r : ℕ) : Except Stop (Heap T) :=
  match seek (fun q => (s.refs q).nextAll) s.allbase r (totalPagerefs + 1) none with
  | none => .error .endless
  | some none => .ok s
  | some (some none) => .ok { s with allbase := (s.refs r).nextAll }
  | some (some (some g)) => .ok (s.setRef g { s.refs g with nextAll := (s.refs r).nextAll })

def Heap.removeLists (s : Heap T) (r blktype : ℕ) : Except Stop (Heap T) :=
  if blktype < nsizes then
    match s.removeSamesize r blktype with
    | .ok s' => s'.removeAll r
    | .error e => .error e
  else .error .assertion

/-- Looks for a page with a free block among those of one size. -/
def Heap.findFree (s : Heap T) (blktype : ℕ) : ℕ → Option ℕ → Except Stop (Option ℕ)
  | 0, _ => .error .endless
  | _ + 1, none => .ok none
  | n + 1, some r =>
    if (s.refs r).blocktype = blktype then
      if 0 < (s.refs r).nfree then .ok (some r) else s.findFree blktype n (s.refs r).nextSamesize
    else .error .assertion

/-- From the label `doalloc` on: the head of the page's free list is taken and returned. -/
def Heap.doalloc (s : Heap T) (t : T) (r sz : ℕ) : Except Stop (Heap T) :=
  let pr := s.refs r
  if pr.freelistOffset < pageSize then
    let prpage := pr.pageaddr
    let retptr := prpage + pr.freelistOffset
    let nfree := pr.nfree - 1
    let done (pr : Pageref) := { (s.setRef r pr).setPhase t .idle with live := (retptr, sz) :: s.live }
    match pointer (s.mem retptr) with
    | some fla =>
      if 0 < nfree ∧ sub32 fla prpage < pageSize then
        .ok (done { pr with nfree := nfree, freelistOffset := sub32 fla prpage })
      else .error .assertion
    | none =>
      if nfree = 0 then .ok (done { pr with nfree := nfree, freelistOffset := invalidOffset })
      else .error .assertion
  else .error .assertion

/-- Links the first `n` blocks of a new page, each to the one before it. -/
def linkBlocks (mem : ℕ → ℕ) (prpage size : ℕ) : ℕ → ℕ → ℕ
  | 0 => mem
  | 1 => update mem prpage 0
  | n + 2 => update (linkBlocks mem prpage size (n + 1)) (prpage + (n + 1) * size) (prpage + n * size)

/-- Enters a fresh page with its pageref and allocates from it. -/
def Heap.newPage (s : Heap T) (t : T) (blktype sz prpage r : ℕ) : Except Stop (Heap T) :=
  let nfree := pageSize / sizeOf blktype
  let pr : Pageref := {
    nextSamesize := s.sizebases blktype
    nextAll := s.allbase
    pageaddrAndBlocktype := mkpab prpage blktype
    freelistOffset := (nfree - 1) * sizeOf blktype
    nfree := nfree }
  Heap.doalloc { s with
    refs := update s.refs r pr
    mem := linkBlocks s.mem prpage (sizeOf blktype) nfree
    sizebases := update s.sizebases blktype (some r)
    allbase := some r } t r sz

/-- What follows on `allocpageref`, once the root has a page or is known to have none. -/
def Heap.havePageref (s : Heap T) (t : T) (blktype sz prpage w j : ℕ) : Except Stop (Heap T) :=
  if (s.kheaproots w).page = 0 then .ok (s.setPhase t (.giving prpage))
  else s.newPage t blktype sz prpage (s.refAddr w j)

/-- `subpage_kmalloc` up to the first place where the lock is dropped. -/
def Heap.subpageKmalloc (s : Heap T) (t : T) (sz : ℕ) : Except Stop (Heap T) :=
  match blocktype sz with
  | none => .error .assertion
  | some blktype =>
    match s.findFree blktype (totalPagerefs + 1) (s.sizebases blktype) with
    | .error e => .error e
    | .ok (some r) => s.doalloc t r sz
    | .ok none => .ok (s.setPhase t (.pageWanted blktype sz))

/-- `allocpageref`, in the section after a page has been got. -/
def Heap.allocpageref (s : Heap T) (t : T) (blktype sz prpage : ℕ) : Except Stop (Heap T) :=
  match s.unusedPageref with
  | none => .ok (s.setPhase t (.giving prpage))
  | some (w, j) =>
    if (s.kheaproots w).page = 0 then
      .ok ((s.takePageref w j).setPhase t (.refPageWanted blktype sz prpage w j))
    else (s.takePageref w j).havePageref t blktype sz prpage w j

/-- `allocpagerefpage` from its second `spinlock_acquire` on. -/
def Heap.pagerefpageGot (s : Heap T) (t : T) (blktype sz prpage w j va : ℕ) : Except Stop (Heap T) :=
  if va = 0 then s.havePageref t blktype sz prpage w j
  else if va % pageSize = 0 then
    if (s.kheaproots w).page ≠ 0 then
      .ok (s.setPhase t (.refPageExtra blktype sz prpage w j va))
    else
      (s.setRoot w { s.kheaproots w with page := va }).havePageref t blktype sz prpage w j
  else .error .assertion

/-- Looks for the page an address lies on. -/
def Heap.findPage (s : Heap T) (ptraddr : ℕ) : ℕ → Option ℕ → Except Stop (Option ℕ)
  | 0, _ => .error .endless
  | _ + 1, none => .ok none
  | n + 1, some r =>
    if (s.refs r).blocktype < nsizes then
      if (s.refs r).pageaddr ≤ ptraddr ∧ ptraddr < (s.refs r).pageaddr + pageSize then .ok (some r)
      else s.findPage ptraddr n (s.refs r).nextAll
    else .error .assertion

/-- `fill_deadbeef` on `len` bytes from an aligned address on. -/
def fillDeadbeef (mem : ℕ → ℕ) (ptr len : ℕ) : ℕ → ℕ :=
  fun a => if ptr ≤ a ∧ a < ptr + len / 4 * 4 ∧ (a - ptr) % 4 = 0 then 0xdeadbeef else mem a

/-- The part of `subpage_kfree` after the page has been found. -/
def Heap.freeOn (s : Heap T) (t : T) (ptr r : ℕ) : Except Stop (Heap T) :=
  let pr := s.refs r
  let size := sizeOf pr.blocktype
  let offset := ptr - pr.pageaddr
  if offset < pageSize ∧ offset % size = 0 then
    let mem := fillDeadbeef s.mem ptr size
    let next := if pr.freelistOffset = invalidOffset then 0 else pr.pageaddr + pr.freelistOffset
    if next ≠ ptr then
      let s' := { s with
        mem := update mem ptr next
        refs := update s.refs r { pr with freelistOffset := offset, nfree := pr.nfree + 1 }
        live := s.live.filter (fun b => decide (b.1 ≠ ptr)) }
      if pr.nfree + 1 ≤ pageSize / size then
        if pr.nfree + 1 = pageSize / size then
          match s'.removeLists r pr.blocktype with
          | .error e => .error e
          | .ok s'' => match s''.freepageref r with
            | .error e => .error e
            | .ok u => .ok (u.setPhase t (.giving pr.pageaddr))
        else .ok s'
      else .error .assertion
    else .error .assertion
  else .error .assertion

/-- `subpage_kfree`; without a result if the pointer is on none of the pages. -/
def Heap.subpageKfree (s : Heap T) (t : T) (ptr : ℕ) : Except Stop (Option (Heap T)) :=
  match s.findPage ptr (totalPagerefs + 1) s.allbase with
  | .error e => .error e
  | .ok none => .ok none
  | .ok (some r) => match s.freeOn t ptr r with
    | .error e => .error e
    | .ok s' => .ok (some s')

/-- The step of a thread that has been waiting for the lock, or has a page to give back. -/
def Heap.resume (s : Heap T) (t : T) : Except Stop (Heap T) :=
  match s.threads t with
  | .idle => .error .notReady
  | .pageWanted _ _ => .error .notReady
  | .pageGot blktype sz prpage =>
    if prpage = 0 then .ok (s.setPhase t .idle)
    else if prpage % pageSize = 0 then s.allocpageref t blktype sz prpage
    else .error .assertion
  | .refPageWanted _ _ _ _ _ => .error .notReady
  | .refPageGot blktype sz prpage w j va => s.pagerefpageGot t blktype sz prpage w j va
  | .refPageExtra blktype sz prpage w j va =>
    .ok { s.setPhase t (.refPageBack blktype sz prpage w j) with held := s.held.erase va }
  | .refPageBack blktype sz prpage w j =>
    if (s.kheaproots w).page ≠ 0 then s.havePageref t blktype sz prpage w j else .error .assertion
  | .giving prpage => .ok { s.setPhase t .idle with held := s.held.erase prpage }

/-- `alloc_kpages(1)` returns `va`; 0 means that there was no page. -/
def Heap.gotKpages (s : Heap T) (t : T) (va : ℕ) : Except Stop (Heap T) :=
  let s' := { s with held := if va = 0 then s.held else va :: s.held }
  match s.threads t with
  | .pageWanted blktype sz => .ok (s'.setPhase t (.pageGot blktype sz va))
  | .refPageWanted blktype sz prpage w j => .ok (s'.setPhase t (.refPageGot blktype sz prpage w j va))
  | .idle => .error .notReady
  | .pageGot _ _ _ => .error .notReady
  | .refPageGot _ _ _ _ _ _ => .error .notReady
  | .refPageExtra _ _ _ _ _ _ => .error .notReady
  | .refPageBack _ _ _ _ _ => .error .notReady
  | .giving _ => .error .notReady

/-- A pointer on none of the pages changes nothing here; `subpage_kfree` returns -1. -/
def step : Act T → Heap T → Except Stop (Heap T)
  | .subpageKmalloc t sz, s => if s.threads t = .idle then s.subpageKmalloc t sz else .error .notReady
  | .allocKpages t va, s => s.gotKpages t va
  | .resume t, s => s.resume t
  | .subpageKfree t ptr, s =>
    if s.threads t = .idle then
      match s.subpageKfree t ptr with
      | .error e => .error e
      | .ok none => .ok s
      | .ok (some s') => .ok s'
    else .error .notReady
  | .store a v, s => .ok { s with mem := update s.mem a v }

end OS161.Kmalloc
