import OS161.DoublyLinked
import OS161.Vfs

/-!
# The concurrent linked list

Every operation runs from end to end under the lock of the list, so its steps
are taken on the list as a whole. Keys are machine integers. The loop of
`linked_list_insert` is given a number of rounds; a list whose pointers do not
come to an end uses them up.
-/

set_option autoImplicit false

namespace OS161.ConcurrentList

open Function OS161.Slots OS161.Vfs OS161.DoublyLinked

variable {α : Type}

/-- A key and a pointer to data, which may be null. -/
structure Item (α : Type) where
  key : Int32
  data : Option α
  deriving DecidableEq

abbrev Node (α : Type) := Cell (Item α)

abbrev Heap (α : Type) := Store (Node α)

structure LinkedList (α : Type) where
  heap : Heap α
  first : Option ℕ
  last : Option ℕ
  length : ℤ

def linkedListCreate (heap : Heap α) : LinkedList α := ⟨heap, none, none, 0⟩

def linkedListCreateNode (key : Int32) (data : Option α) (h : Heap α) : ℕ × Heap α :=
  (h.next, h.alloc ⟨none, none, ⟨key, data⟩⟩)

/-- Reading through a pointer that is null or freed stops the kernel. -/
def read (p : Option ℕ) (h : Heap α) : Except Stop (Node α) :=
  match p with
  | none => .error .panic
  | some a => match h.get a with
    | none => .error .useAfterFree
    | some c => .ok c

def write (p : Option ℕ) (f : Node α → Node α) (h : Heap α) : Except Stop (Heap α) :=
  match p with
  | none => .error .panic
  | some a => match h.get a with
    | none => .error .useAfterFree
    | some c => .ok (h.set a (f c))

def linkedListPrepend (data : Option α) (l : LinkedList α) : Except Stop (LinkedList α) :=
  match l.first with
  | none =>
    let (newnode, heap) := linkedListCreateNode 0 data l.heap
    .ok ⟨heap, some newnode, some newnode, l.length+1⟩
  | some f => do
    let c ← read (some f) l.heap
    let (newnode, heap) := linkedListCreateNode (c.val.key-1) data l.heap
    let heap ← write (some newnode) (fun c => { c with next := l.first }) heap
    let heap ← write (some f) (fun c => { c with prev := some newnode }) heap
    .ok ⟨heap, some newnode, l.last, l.length+1⟩

/-- The loop that looks for the first node whose key is not below the new one. -/
def seek (key : Int32) (h : Heap α) : ℕ → Option ℕ → Except Stop (Option ℕ)
  | _, none => .ok none
  | 0, some _ => .error .blocked
  | n+1, some runner => do
    let c ← read (some runner) h
    if c.val.key < key then seek key h n c.next else .ok (some runner)

/-- Before `runner`, or at the tail if there is no such node. -/
def splice (new : ℕ) (last runner : Option ℕ) (h : Heap α) : Except Stop (Heap α) :=
  match runner with
  | some r => do
    let c ← read (some r) h
    let prev := c.prev
    let h ← write (some new) (fun c => { c with next := some r }) h
    let h ← write (some new) (fun c => { c with prev := prev }) h
    let h ← write (some r) (fun c => { c with prev := some new }) h
    if prev ≠ none then write prev (fun c => { c with next := some new }) h else .ok h
  | none => do
    let h ← write (some new) (fun c => { c with next := none }) h
    let h ← write (some new) (fun c => { c with prev := last }) h
    write last (fun c => { c with next := some new }) h

def linkedListInsert (rounds : ℕ) (key : Int32) (data : Option α) (l : LinkedList α) :
    Except Stop (LinkedList α) :=
  let (new, heap) := linkedListCreateNode key data l.heap
  match l.first with
  | none => .ok ⟨heap, some new, some new, l.length+1⟩
  | some f => do
    let runner ← seek key heap rounds (some f)
    let heap ← splice new l.last runner heap
    let c ← read (some new) heap
    .ok ⟨heap, if c.prev = none then some new else l.first, if c.next = none then some new else l.last,
      l.length+1⟩

/-- What the caller gets: the data, and the key if it has asked for it. -/
structure Removed (α : Type) where
  data : Option α
  key : Option Int32
  deriving DecidableEq

/-- The node that is the new head, if there is one, has none before it. -/
def clearPrev (newHead : Option ℕ) (h : Heap α) : Except Stop (Heap α) :=
  if newHead ≠ none then write newHead (fun c => { c with prev := none }) h else .ok h

def linkedListRemoveHead (wantKey : Bool) (l : LinkedList α) : Except Stop (Removed α × LinkedList α) :=
  match l.first with
  | none => .ok (⟨none, none⟩, l)
  | some removed => do
    let c ← read (some removed) l.heap
    let newHead := c.next
    let heap ← clearPrev newHead l.heap
    let last := if l.length ≤ 2 then newHead else l.last
    .ok (⟨c.val.data, if wantKey then some c.val.key else none⟩,
      ⟨heap.free removed, newHead, last, l.length-1⟩)

inductive Op (α : Type) where
  | prepend (data : Option α)
  | insert (key : Int32) (data : Option α)
  | removeHead (wantKey : Bool)

def step (rounds : ℕ) (op : Op α) (l : LinkedList α) : Except Stop (List (Removed α) × LinkedList α) :=
  match op with
  | .prepend data => do
    let l ← linkedListPrepend data l
    .ok ([], l)
  | .insert key data => do
    let l ← linkedListInsert rounds key data l
    .ok ([], l)
  | .removeHead wantKey => do
    let (r, l) ← linkedListRemoveHead wantKey l
    .ok ([r], l)

/-- All operations in order, with what the removals return. -/
def run (rounds : ℕ) : List (Op α) → LinkedList α → Except Stop (List (Removed α) × LinkedList α)
  | [], l => .ok ([], l)
  | op::ops, l => do
    let (rs, l) ← step rounds op l
    let (rest, l) ← run rounds ops l
    .ok (rs++rest, l)

/-- The list as it is meant: a sequence of keys with data. -/
def absStep (op : Op α) (xs : List (Item α)) : List (Removed α) × List (Item α) :=
  match op with
  | .prepend data => match xs with
    | [] => ([], [⟨0, data⟩])
    | x::xs => ([], ⟨x.key-1, data⟩::x::xs)
  | .insert key data => ([], xs.takeWhile (·.key < key) ++ ⟨key, data⟩::xs.dropWhile (·.key < key))
  | .removeHead wantKey => match xs with
    | [] => ([⟨none, none⟩], [])
    | x::xs => ([⟨x.data, if wantKey then some x.key else none⟩], xs)

def absRun : List (Op α) → List (Item α) → List (Removed α) × List (Item α)
  | [], xs => ([], xs)
  | op::ops, xs =>
    let (rs, xs) := absStep op xs
    let (rest, xs) := absRun ops xs
    (rs++rest, xs)

/-- The nodes of a list, with what they hold. -/
structure Holds (l : LinkedList α) (xs : List (ℕ × Item α)) : Prop where
  segment : Segment l.heap none xs none
  nodup : (addrs xs).Nodup
  first : l.first = front xs none
  last : l.last = back xs none
  length : l.length = xs.length

variable {h : Heap α} {l : LinkedList α} {xs ys zs : List (ℕ × Item α)}

theorem read_ok {a : ℕ} {c : Node α} (ha : h.get a = some c) : read (some a) h = .ok c := by
  simp [read, ha]

theorem write_ok {a : ℕ} {c : Node α} (ha : h.get a = some c) (f : Node α → Node α) :
    ∃ h', write (some a) f h = .ok h' ∧ ∀ b, h'.get b = if b = a then some (f c) else h.get b := by
  refine ⟨h.set a (f c), by simp [write, ha], ?_⟩
  intro b
  by_cases hb : b = a
  · rw [if_pos hb, hb, Store.set_get_self ha]
  · rw [if_neg hb, Store.set_get hb]

theorem segment_lt {p n : Option ℕ} {a : ℕ} (hs : Segment h p xs n) (ha : a ∈ addrs xs) : a < h.next := by
  obtain ⟨c, hc⟩ := segment_live hs ha
  exact h.live_lt (Store.get_some.mp hc).1

theorem Holds.fresh (hl : Holds l xs) : l.heap.next ∉ addrs xs :=
  fun ha => lt_irrefl _ (segment_lt hl.segment ha)

theorem Holds.nodup_new (ys zs : List (ℕ × Item α)) (hl : Holds l (ys++zs)) (x : Item α) :
    (addrs (ys++(l.heap.next, x)::zs)).Nodup := by
  have hfresh := hl.fresh
  have hd := hl.nodup
  simp only [addrs, List.map_append, List.map_cons] at hd hfresh ⊢
  rw [List.nodup_middle]
  exact List.nodup_cons.mpr ⟨hfresh, hd⟩

theorem prepend_spec (data : Option α) (hl : Holds l xs) : ∃ l' x, linkedListPrepend data l = .ok l' ∧
    Holds l' (x::xs) ∧ x.2::xs.map Prod.snd = (absStep (.prepend data) (xs.map Prod.snd)).2 := by
  have hfirst := hl.first
  cases xs with
  | nil =>
    refine ⟨_, (l.heap.next, ⟨0, data⟩), by simp only [linkedListPrepend, hfirst, front]; rfl, ?_, rfl⟩
    refine ⟨⟨Store.alloc_get_self _ _, trivial⟩, by simp [addrs], rfl, rfl, ?_⟩
    simp [hl.length]
  | cons f xs =>
    have hnew := Holds.nodup_new [] (f::xs) hl ⟨f.2.key-1, data⟩
    have hne : l.heap.next ≠ f.1 := by
      intro he
      exact hl.fresh (by simp [addrs, he])
    have hf := hl.segment.1
    obtain ⟨h1, hw1, hg1⟩ := write_ok (Store.alloc_get_self l.heap ⟨none, none, ⟨f.2.key-1, data⟩⟩)
      (fun c => { c with next := some f.1 })
    have hf1 : h1.get f.1 = some ⟨none, front xs none, f.2⟩ := by
      rw [hg1, if_neg hne.symm, Store.alloc_get_old hf]
    obtain ⟨h2, hw2, hg2⟩ := write_ok hf1 (fun c => { c with prev := some l.heap.next })
    refine ⟨⟨h2, some l.heap.next, l.last, l.length+1⟩, (l.heap.next, ⟨f.2.key-1, data⟩), ?_, ?_, rfl⟩
    · simp only [linkedListPrepend, hfirst, front, read_ok hf, linkedListCreateNode]
      simp only [bind, Except.bind, hw1, hw2]
    · refine ⟨?_, hnew, rfl, hl.last, by simp [hl.length]⟩
      refine segment_insert [] (f::xs) hl.segment hl.nodup ?_ ?_
      · rw [hg2, if_neg hne, hg1, if_pos rfl]
        rfl
      · intro a ha c hc
        have han : a ≠ l.heap.next := fun he => hl.fresh (he ▸ ha)
        rw [hg2]
        by_cases haf : a = f.1
        · rw [haf, hf] at hc
          cases hc
          simp [haf, back, front]
        · rw [if_neg haf, hg1, if_neg han, Store.alloc_get_old hc]
          simp [back, front, Ne.symm haf]

theorem seek_spec (key : Int32) {p : Option ℕ} {n : ℕ} (hs : Segment h p xs none) (hn : xs.length < n) :
    seek key h n (front xs none) = .ok (front (xs.dropWhile (·.2.key < key)) none) := by
  induction xs generalizing p n with
  | nil => cases n <;> rfl
  | cons x xs ih =>
    obtain ⟨m, rfl⟩ : ∃ m, n = m+1 := ⟨n-1, by have := hn; omega⟩
    show seek key h (m+1) (some x.1) = _
    simp only [seek, read_ok hs.1, bind, Except.bind]
    by_cases hk : x.2.key < key
    · rw [if_pos hk, ih hs.2 (by simpa using hn)]
      simp [hk]
    · rw [if_neg hk]
      simp [hk, front]

section Splice

variable {new : ℕ} {x : Item α}

/-- At the tail. -/
theorem splice_tail (hs : Segment h none ys none) (hd : (addrs ys).Nodup) (hne : ys ≠ [])
    (hnew : h.get new = some ⟨none, none, x⟩) (hout : new ∉ addrs ys) :
    ∃ h', splice new (back ys none) none h = .ok h' ∧ Segment h' none (ys++[(new, x)]) none ∧
      h'.get new = some ⟨back ys none, none, x⟩ := by
  obtain ⟨b, hb⟩ := Option.ne_none_iff_exists'.mp (back_ne_none (p := none) hne)
  have hbmem := back_mem hb hne
  have hbn : b ≠ new := fun he => hout (he ▸ hbmem)
  obtain ⟨h1, hw1, hg1⟩ := write_ok hnew (fun c => { c with next := none })
  have hn1 : h1.get new = some ⟨none, none, x⟩ := by rw [hg1, if_pos rfl]
  obtain ⟨h2, hw2, hg2⟩ := write_ok hn1 (fun c => { c with prev := some b })
  obtain ⟨c, hc⟩ := segment_live hs hbmem
  have hb2 : h2.get b = some c := by rw [hg2, if_neg hbn, hg1, if_neg hbn, hc]
  obtain ⟨h3, hw3, hg3⟩ := write_ok hb2 (fun c => { c with next := some new })
  have hn3 : h3.get new = some ⟨back ys none, none, x⟩ := by
    rw [hg3, if_neg hbn.symm, hg2, if_pos rfl, hb]
  refine ⟨h3, ?_, ?_, hn3⟩
  · simp only [splice, bind, Except.bind, hw1, hb, hw2, hw3]
  · refine segment_insert ys [] (by simpa using hs) (by simpa using hd) hn3 ?_
    intro a ha d hd'
    rw [List.append_nil] at ha
    have han : a ≠ new := fun he => hout (he ▸ ha)
    rw [hg3, hb]
    by_cases hab : a = b
    · rw [hab, hc] at hd'
      cases hd'
      simp [hab, front]
    · rw [if_neg hab, hg2, if_neg han, hg1, if_neg han, hd']
      simp [front, Ne.symm hab]

/-- Before the node `r`. -/
theorem splice_before {r : ℕ × Item α} (last : Option ℕ) (hs : Segment h none (ys++r::zs) none)
    (hd : (addrs (ys++r::zs)).Nodup) (hnew : h.get new = some ⟨none, none, x⟩)
    (hout : new ∉ addrs (ys++r::zs)) :
    ∃ h', splice new last (some r.1) h = .ok h' ∧ Segment h' none (ys++(new, x)::r::zs) none ∧
      h'.get new = some ⟨back ys none, some r.1, x⟩ := by
  have hr := (segment_append.mp hs).2.1
  have hrmem : r.1 ∈ addrs (ys++r::zs) := by simp [addrs]
  have hrn : r.1 ≠ new := fun he => hout (he ▸ hrmem)
  obtain ⟨h1, hw1, hg1⟩ := write_ok hnew (fun c => { c with next := some r.1 })
  have hn1 : h1.get new = some ⟨none, some r.1, x⟩ := by rw [hg1, if_pos rfl]
  obtain ⟨h2, hw2, hg2⟩ := write_ok hn1 (fun c => { c with prev := back ys none })
  have hr2 : h2.get r.1 = some ⟨back ys none, front zs none, r.2⟩ := by
    rw [hg2, if_neg hrn, hg1, if_neg hrn, hr]
  obtain ⟨h3, hw3, hg3⟩ := write_ok hr2 (fun c => { c with prev := some new })
  have hn3 : h3.get new = some ⟨back ys none, some r.1, x⟩ := by
    rw [hg3, if_neg hrn.symm, hg2, if_pos rfl]
  have hold : ∀ a ∈ addrs (ys++r::zs), ∀ c, h.get a = some c →
      h3.get a = some { c with prev := if some r.1 = some a then some new else c.prev } := by
    intro a ha c hc
    have han : a ≠ new := fun he => hout (he ▸ ha)
    rw [hg3]
    by_cases har : a = r.1
    · rw [har, hr] at hc
      cases hc
      simp [har]
    · rw [if_neg har, hg2, if_neg han, hg1, if_neg han, hc]
      simp [Ne.symm har]
  cases hb : back ys none with
  | none =>
    refine ⟨h3, ?_, ?_, by rw [hn3, hb]⟩
    · rw [hb] at hw2
      simp only [splice, read_ok hr, bind, Except.bind, hw1, hb, hw2, hw3]
      rfl
    · refine segment_insert ys (r::zs) hs hd hn3 ?_
      intro a ha c hc
      rw [hold a ha c hc, hb]
      simp [front]
  | some b =>
    have hbys : b ∈ addrs ys := by
      cases ys with
      | nil => cases hb
      | cons y ys => exact back_mem hb (by simp)
    have hbmem : b ∈ addrs (ys++r::zs) := by
      rw [addrs, List.map_append]
      exact List.mem_append_left _ hbys
    obtain ⟨c, hc⟩ := segment_live hs hbmem
    obtain ⟨h4, hw4, hg4⟩ := write_ok (hold b hbmem c hc) (fun c => { c with next := some new })
    have hbn : b ≠ new := fun he => hout (he ▸ hbmem)
    have hn4 : h4.get new = some ⟨back ys none, some r.1, x⟩ := by rw [hg4, if_neg hbn.symm, hn3]
    refine ⟨h4, ?_, ?_, by rw [hn4, hb]⟩
    · rw [hb] at hw2
      simp only [splice, read_ok hr, bind, Except.bind, hw1, hb, hw2, hw3]
      simp [hw4]
    · refine segment_insert ys (r::zs) hs hd hn4 ?_
      intro a ha d hd'
      rw [hg4, hb]
      by_cases hab : a = b
      · rw [hab, hc] at hd'
        cases hd'
        simp [hab, front]
      · rw [if_neg hab, hold a ha d hd']
        simp [front, Ne.symm hab]

end Splice

theorem insert_at (hl : Holds l (ys++zs)) (hne : ys++zs ≠ []) (key : Int32) (data : Option α) :
    ∃ h' c, splice l.heap.next l.last (front zs none) (l.heap.alloc ⟨none, none, ⟨key, data⟩⟩) = .ok h' ∧
      read (some l.heap.next) h' = .ok c ∧
      Holds ⟨h', if c.prev = none then some l.heap.next else l.first,
        if c.next = none then some l.heap.next else l.last, l.length+1⟩
        (ys++(l.heap.next, ⟨key, data⟩)::zs) := by
  have hs : Segment (l.heap.alloc ⟨none, none, ⟨key, data⟩⟩) none (ys++zs) none :=
    segment_frame hl.segment (fun a ha => by
      obtain ⟨c, hc⟩ := segment_live hl.segment ha
      rw [hc, Store.alloc_get_old hc])
  have hnew := Store.alloc_get_self l.heap ⟨none, none, ⟨key, data⟩⟩
  have hd := hl.nodup_new ys zs ⟨key, data⟩
  have hlen : l.length+1 = (ys++(l.heap.next, (⟨key, data⟩ : Item α))::zs).length := by
    rw [hl.length]
    simp
    omega
  cases zs with
  | nil =>
    rw [List.append_nil] at hs hne
    have hlast : l.last = back ys none := by rw [hl.last, List.append_nil]
    obtain ⟨h', hsp, hseg, hn⟩ := splice_tail hs (by simpa using hl.nodup) hne hnew
      (by simpa using hl.fresh)
    refine ⟨h', _, by rw [hlast]; exact hsp, read_ok hn, ⟨hseg, hd, ?_, ?_, hlen⟩⟩
    · rw [if_neg (back_ne_none hne), hl.first, front_append, front_append]
      cases ys with
      | nil => exact absurd rfl hne
      | cons y ys => rfl
    · rw [if_pos rfl, back_append]
      rfl
  | cons r zs =>
    obtain ⟨h', hsp, hseg, hn⟩ := splice_before l.last hs hl.nodup hnew hl.fresh
    refine ⟨h', _, hsp, read_ok hn, ⟨hseg, hd, ?_, ?_, hlen⟩⟩
    · cases ys with
      | nil => simp [back, front]
      | cons y ys =>
        rw [if_neg (back_ne_none (by simp)), hl.first]
        rfl
    · rw [hl.last, back_append, back_append]
      rfl

theorem insert_spec {rounds : ℕ} (key : Int32) (data : Option α) (hl : Holds l xs)
    (hr : xs.length < rounds) : ∃ l' xs', linkedListInsert rounds key data l = .ok l' ∧ Holds l' xs' ∧
      xs'.length = xs.length+1 ∧
      xs'.map Prod.snd = (absStep (.insert key data) (xs.map Prod.snd)).2 := by
  have hsplit := List.takeWhile_append_dropWhile (p := fun x : ℕ × Item α => x.2.key < key) (l := xs)
  have habs : ∀ k, (xs.takeWhile (·.2.key < key) ++ (k, ⟨key, data⟩)::xs.dropWhile (·.2.key < key)).map
      Prod.snd = (absStep (.insert key data) (xs.map Prod.snd)).2 := by
    intro k
    simp only [absStep, List.takeWhile_map, List.dropWhile_map, List.map_append, List.map_cons]
    rfl
  have hcount : ∀ x : ℕ × Item α,
      (xs.takeWhile (·.2.key < key) ++ x::xs.dropWhile (·.2.key < key)).length = xs.length+1 := by
    intro x
    rw [List.length_append, List.length_cons, ← Nat.add_assoc, ← List.length_append, hsplit]
  have hfirst := hl.first
  by_cases hxs : xs = []
  · subst hxs
    refine ⟨_, [(l.heap.next, ⟨key, data⟩)], by simp only [linkedListInsert, hfirst, front]; rfl, ?_,
      rfl, rfl⟩
    exact ⟨⟨Store.alloc_get_self _ _, trivial⟩, by simp [addrs], rfl, rfl, by simp [hl.length]⟩
  · rw [← hsplit] at hl
    obtain ⟨h', c, hsp, hrd, hl'⟩ := insert_at hl (by rw [hsplit]; exact hxs) key data
    obtain ⟨x, rest, hcons⟩ := List.exists_cons_of_ne_nil hxs
    have hsome : l.first = some x.1 := by rw [hfirst, hcons]; rfl
    have hs : Segment (l.heap.alloc ⟨none, none, ⟨key, data⟩⟩) none xs none := by
      rw [hsplit] at hl
      refine segment_frame hl.segment (fun a ha => ?_)
      obtain ⟨c, hc⟩ := segment_live hl.segment ha
      rw [hc, Store.alloc_get_old hc]
    have hseek := seek_spec key hs hr
    rw [← hfirst, hsome] at hseek
    refine ⟨_, _, ?_, hl', hcount _, habs _⟩
    simp only [linkedListInsert, linkedListCreateNode, hsome, bind, Except.bind, hseek, hsp, hrd]

theorem clearPrev_ok {p : Option ℕ} (hs : Segment h p xs none) (hd : (addrs xs).Nodup) :
    ∃ h', clearPrev (front xs none) h = .ok h' ∧ Segment h' none xs none := by
  cases xs with
  | nil => exact ⟨h, by simp [clearPrev, front], trivial⟩
  | cons y ys =>
    obtain ⟨h', hw, hg⟩ := write_ok hs.1 (fun c => { c with prev := none })
    refine ⟨h', by simp [clearPrev, front, hw], segment_front hs ?_ hd⟩
    intro a ha c hc
    rw [hg]
    by_cases hay : a = y.1
    · rw [hay, hs.1] at hc
      cases hc
      simp [hay, front]
    · rw [if_neg hay, hc]
      simp [front, Ne.symm hay]

theorem removeHead_spec (wantKey : Bool) (hl : Holds l xs) : ∃ r l' xs',
    linkedListRemoveHead wantKey l = .ok (r, l') ∧ Holds l' xs' ∧ xs'.length ≤ xs.length ∧
      ([r], xs'.map Prod.snd) = absStep (.removeHead wantKey) (xs.map Prod.snd) := by
  have hfirst := hl.first
  cases xs with
  | nil => exact ⟨⟨none, none⟩, l, [], by simp [linkedListRemoveHead, hfirst, front], hl, le_rfl, rfl⟩
  | cons x xs =>
    have hx := hl.segment.1
    obtain ⟨hout, hd⟩ := List.nodup_cons.mp hl.nodup
    have hlen : l.length-1 = xs.length := by
      rw [hl.length]
      simp
    obtain ⟨h', hw, hseg⟩ := clearPrev_ok hl.segment.2 hd
    have hgone : Segment (h'.free x.1) none xs none := by
      refine segment_frame hseg (fun a ha => Store.free_get ?_)
      rintro rfl
      exact hout ha
    -- `last` is found by counting: it moves exactly if there is at most one node left
    have hlast : (if l.length ≤ 2 then front xs none else l.last) = back xs none := by
      rw [hl.last, hl.length]
      cases xs with
      | nil => rfl
      | cons y ys =>
        cases ys with
        | nil => rfl
        | cons z zs =>
          rw [if_neg (by simp only [List.length_cons]; omega)]
          rfl
    refine ⟨⟨x.2.data, if wantKey then some x.2.key else none⟩, ⟨h'.free x.1, front xs none,
      if l.length ≤ 2 then front xs none else l.last, l.length-1⟩, xs, ?_,
      ⟨hgone, hd, rfl, hlast, hlen⟩, by simp, rfl⟩
    have hsome : l.first = some x.1 := hfirst
    simp only [linkedListRemoveHead, hsome, read_ok hx, bind, Except.bind, hw]

theorem step_spec {rounds : ℕ} (op : Op α) (hl : Holds l xs) (hr : xs.length < rounds) : ∃ rs l' xs',
    step rounds op l = .ok (rs, l') ∧ Holds l' xs' ∧ xs'.length ≤ xs.length+1 ∧
      (rs, xs'.map Prod.snd) = absStep op (xs.map Prod.snd) := by
  cases op with
  | prepend data =>
    obtain ⟨l', x, hp, hl', habs⟩ := prepend_spec data hl
    refine ⟨[], l', x::xs, by simp [step, hp, bind, Except.bind], hl', by simp, ?_⟩
    rw [List.map_cons, habs]
    cases xs <;> rfl
  | insert key data =>
    obtain ⟨l', xs', hi, hl', hlen, habs⟩ := insert_spec key data hl hr
    refine ⟨[], l', xs', by simp [step, hi, bind, Except.bind], hl', by omega, ?_⟩
    rw [habs]
    rfl
  | removeHead wantKey =>
    obtain ⟨r, l', xs', hrm, hl', hlen, habs⟩ := removeHead_spec wantKey hl
    exact ⟨[r], l', xs', by simp [step, hrm, bind, Except.bind], hl', by omega, habs⟩

theorem run_spec {rounds : ℕ} {ops : List (Op α)} (hl : Holds l xs)
    (hr : xs.length + ops.length ≤ rounds) : ∃ rs l' xs', run rounds ops l = .ok (rs, l') ∧ Holds l' xs' ∧
      (rs, xs'.map Prod.snd) = absRun ops (xs.map Prod.snd) := by
  induction ops generalizing l xs with
  | nil => exact ⟨[], l, xs, rfl, hl, rfl⟩
  | cons op ops ih =>
    rw [List.length_cons] at hr
    obtain ⟨rs, l₁, xs₁, hstep, hl₁, hlen, habs⟩ := step_spec op hl (show xs.length < rounds by omega)
    obtain ⟨rest, l', xs', hrun, hl', hrest⟩ := ih hl₁ (by omega)
    refine ⟨rs++rest, l', xs', by simp [run, hstep, hrun, bind, Except.bind], hl', ?_⟩
    simp only [absRun, ← habs, ← hrest]

/-- A list whose pointers are right in both directions, and what it holds. -/
structure WellLinked (l : LinkedList α) (items : List (Item α)) (nodes : List ℕ) : Prop where
  forward : Visits l.heap Cell.next l.first nodes
  backward : Visits l.heap Cell.prev l.last nodes.reverse
  length : l.length = nodes.length
  first : l.first = none ↔ l.length = 0
  last : l.last = none ↔ l.length = 0
  contents : nodes.map (fun a => (l.heap.get a).map Cell.val) = items.map some

theorem segment_contents {p n : Option ℕ} (hs : Segment h p xs n) :
    (addrs xs).map (fun a => (h.get a).map Cell.val) = (xs.map Prod.snd).map some := by
  induction xs generalizing p with
  | nil => rfl
  | cons x xs ih =>
    simp only [addrs, List.map_cons] at ih ⊢
    rw [ih hs.2, hs.1]
    rfl

theorem holds_wellLinked (hl : Holds l xs) : WellLinked l (xs.map Prod.snd) (addrs xs) := by
  have hzero : l.length = 0 ↔ xs = [] := by
    rw [hl.length]
    simp
  refine ⟨?_, ?_, ?_, ?_, ?_, segment_contents hl.segment⟩
  · rw [hl.first]
    exact visits_next hl.segment
  · rw [hl.last]
    exact visits_prev hl.segment
  · simp [hl.length, addrs]
  · rw [hzero, hl.first]
    cases xs <;> simp [front]
  · rw [hzero, hl.last]
    constructor
    · intro hb
      by_contra hne
      exact back_ne_none hne hb
    · rintro rfl
      rfl

/-- All operations return, and the list is that of the abstract operations. -/
theorem run_refines (heap : Heap α) (ops : List (Op α)) (rounds : ℕ) (hr : ops.length ≤ rounds) :
    ∃ l nodes, run rounds ops (linkedListCreate heap) = .ok ((absRun ops []).1, l) ∧
      WellLinked l (absRun ops []).2 nodes := by
  have hempty : Holds (linkedListCreate heap) [] := ⟨trivial, List.nodup_nil, rfl, rfl, rfl⟩
  obtain ⟨rs, l, xs, hrun, hl, habs⟩ := run_spec hempty (by simpa using hr)
  have hrs : rs = (absRun ops []).1 := congrArg Prod.fst habs
  have hxs : xs.map Prod.snd = (absRun ops []).2 := congrArg Prod.snd habs
  exact ⟨l, addrs xs, hrs ▸ hrun, hxs ▸ holds_wellLinked hl⟩

/-- The four places where a node can go, and a removal. -/
def everywhere : List (Op ℕ) :=
  [.insert 5 (some 10), .insert 9 (some 11), .insert 7 none, .prepend (some 12), .removeHead true,
    .insert 1 (some 13), .insert 7 (some 14)]

theorem everywhere_refines : ∃ l nodes, run 7 everywhere (linkedListCreate Store.empty) =
      .ok ([⟨some 12, some 4⟩], l) ∧
    WellLinked l [⟨1, some 13⟩, ⟨5, some 10⟩, ⟨7, some 14⟩, ⟨7, none⟩, ⟨9, some 11⟩] nodes := by
  have h := run_refines (α := ℕ) Store.empty everywhere 7 (by decide)
  rwa [show absRun everywhere [] = ([⟨some 12, some 4⟩],
    [⟨1, some 13⟩, ⟨5, some 10⟩, ⟨7, some 14⟩, ⟨7, none⟩, ⟨9, some 11⟩]) by decide] at h

end OS161.ConcurrentList
