import OS161.Rows
import OS161.Runs
import OS161.Vfs

/-!
# Thread lists

A thread list has a node before its first thread and one behind its last, so that
every thread on a list has two neighbours. A thread has one node and is on one list
at most; on no list both its pointers are null. There are any number of lists.
-/

set_option autoImplicit false

namespace OS161.Threadlist

open Function OS161.Rows
open OS161.Vfs (Stop)

/-- The nodes of the lists in `L` and of the threads in `T`. -/
inductive Node (L T : Type*) where
  | head (tl : L)
  | tail (tl : L)
  | thread (t : T)
  deriving DecidableEq

structure State (L T : Type*) where
  prev : Node L T → Option (Node L T)
  next : Node L T → Option (Node L T)
  self : Node L T → Option T
  count : L → ℕ

variable {L T : Type*} [DecidableEq L] [DecidableEq T]

def threadlistnodeInit (t : T) (s : State L T) : State L T :=
  { s with
    next := update s.next (.thread t) none
    prev := update s.prev (.thread t) none
    self := update s.self (.thread t) (some t) }

def threadlistInit (tl : L) (s : State L T) : State L T where
  next := update (update s.next (.head tl) (some (.tail tl))) (.tail tl) none
  prev := update (update s.prev (.head tl) none) (.tail tl) (some (.head tl))
  self := update (update s.self (.head tl) none) (.tail tl) none
  count := update s.count tl 0

def threadlistIsempty (tl : L) (s : State L T) : Bool := s.count tl = 0

/-- Following a null pointer stops the kernel. -/
def setNext (p : Option (Node L T)) (n : Option (Node L T)) (s : State L T) : Except Stop (State L T) :=
  match p with
  | none => .error .panic
  | some a => .ok { s with next := update s.next a n }

def setPrev (n : Option (Node L T)) (p : Option (Node L T)) (s : State L T) : Except Stop (State L T) :=
  match n with
  | none => .error .panic
  | some a => .ok { s with prev := update s.prev a p }

/-- The end of both insertions, once the new node has its pointers. -/
def linkIn (addee : Node L T) (s : State L T) : Except Stop (State L T) :=
  match setNext (s.prev addee) (some addee) s with
  | .error stop => .error stop
  | .ok s' => setPrev (s'.next addee) (some addee) s'

def insertafternode (onlist : Node L T) (t : T) (s : State L T) : Except Stop (State L T) :=
  let addee : Node L T := .thread t
  if s.prev addee ≠ none ∨ s.next addee ≠ none then .error .panic
  else
    let s' := { s with prev := update s.prev addee (some onlist) }
    linkIn addee { s' with next := update s'.next addee (s'.next onlist) }

def insertbeforenode (t : T) (onlist : Node L T) (s : State L T) : Except Stop (State L T) :=
  let addee : Node L T := .thread t
  if s.prev addee ≠ none ∨ s.next addee ≠ none then .error .panic
  else
    let s' := { s with prev := update s.prev addee (s.prev onlist) }
    linkIn addee { s' with next := update s'.next addee (some onlist) }

def removenode (tln : Node L T) (s : State L T) : Except Stop (State L T) :=
  if s.prev tln = none ∨ s.next tln = none then .error .panic
  else
    match setNext (s.prev tln) (s.next tln) s with
    | .error stop => .error stop
    | .ok s' =>
      match setPrev (s'.next tln) (s'.prev tln) s' with
      | .error stop => .error stop
      | .ok s'' => .ok { s'' with prev := update s''.prev tln none, next := update s''.next tln none }

/-- What the functions that add do after the insertion. -/
def countUp (tl : L) (r : Except Stop (State L T)) : Except Stop (State L T) :=
  match r with
  | .error stop => .error stop
  | .ok s => .ok { s with count := update s.count tl (s.count tl + 1) }

/-- What the functions that remove do after the removal. -/
def countDown (tl : L) (r : Except Stop (State L T)) : Except Stop (State L T) :=
  match r with
  | .error stop => .error stop
  | .ok s => if s.count tl = 0 then .error .panic else .ok { s with count := update s.count tl (s.count tl - 1) }

def threadlistAddhead (tl : L) (t : T) (s : State L T) : Except Stop (State L T) :=
  countUp tl (insertafternode (.head tl) t s)

def threadlistAddtail (tl : L) (t : T) (s : State L T) : Except Stop (State L T) :=
  countUp tl (insertbeforenode t (.tail tl) s)

def threadlistInsertafter (tl : L) (onlist addee : T) (s : State L T) : Except Stop (State L T) :=
  countUp tl (insertafternode (.thread onlist) addee s)

def threadlistInsertbefore (tl : L) (addee onlist : T) (s : State L T) : Except Stop (State L T) :=
  countUp tl (insertbeforenode addee (.thread onlist) s)

/-- Takes a node out and returns its thread. -/
def unlinkNode (tl : L) (tln : Node L T) (s : State L T) : Except Stop (Option T × State L T) :=
  match countDown tl (removenode tln s) with
  | .error stop => .error stop
  | .ok s' => .ok (s'.self tln, s')

-- only the node at the tail has none after it
def threadlistRemhead (tl : L) (s : State L T) : Except Stop (Option T × State L T) :=
  match s.next (.head tl) with
  | none => .error .panic
  | some tln => if s.next tln = none then .ok (none, s) else unlinkNode tl tln s

def threadlistRemtail (tl : L) (s : State L T) : Except Stop (Option T × State L T) :=
  match s.prev (.tail tl) with
  | none => .error .panic
  | some tln => if s.prev tln = none then .ok (none, s) else unlinkNode tl tln s

def threadlistRemove (tl : L) (t : T) (s : State L T) : Except Stop (State L T) :=
  countDown tl (removenode (.thread t) s)

inductive Action (L T : Type*) where
  | addhead (tl : L) (t : T)
  | addtail (tl : L) (t : T)
  | insertafter (tl : L) (onlist addee : T)
  | insertbefore (tl : L) (addee onlist : T)
  | remhead (tl : L)
  | remtail (tl : L)
  | remove (tl : L) (t : T)

/-- Nothing is returned but by the functions that take a thread off an end. -/
def silent (r : Except Stop (State L T)) : Except Stop (Option T × State L T) := r.map fun s => (none, s)

def step : Action L T → State L T → Except Stop (Option T × State L T)
  | .addhead tl t, s => silent (threadlistAddhead tl t s)
  | .addtail tl t, s => silent (threadlistAddtail tl t s)
  | .insertafter tl onlist addee, s => silent (threadlistInsertafter tl onlist addee s)
  | .insertbefore tl addee onlist, s => silent (threadlistInsertbefore tl addee onlist s)
  | .remhead tl, s => threadlistRemhead tl s
  | .remtail tl, s => threadlistRemtail tl s
  | .remove tl t, s => silent (threadlistRemove tl t s)

/-- All actions in order, with what they return. -/
def run : List (Action L T) → State L T → Except Stop (List (Option T) × State L T)
  | [], s => .ok ([], s)
  | a::as, s =>
    match step a s with
    | .error stop => .error stop
    | .ok (r, s') =>
      match run as s' with
      | .error stop => .error stop
      | .ok (rs, s'') => .ok (r::rs, s'')

omit [DecidableEq L] [DecidableEq T] in
/-- No thread is on a list yet. -/
def initial : State L T where
  prev
    | .tail tl => some (.head tl)
    | _ => none
  next
    | .head tl => some (.tail tl)
    | _ => none
  self
    | .thread t => some t
    | _ => none
  count _ := 0

/-- The lists as they are meant. -/
abbrev Lists (L T : Type*) := L → List T

def insertAfter (onlist addee : T) : List T → List T
  | [] => []
  | t::ts => if t = onlist then t::addee::ts else t :: insertAfter onlist addee ts

def insertBefore (addee onlist : T) : List T → List T
  | [] => []
  | t::ts => if t = onlist then addee::t::ts else t :: insertBefore addee onlist ts

def absStep : Action L T → Lists L T → Option T × Lists L T
  | .addhead tl t, q => (none, update q tl (t :: q tl))
  | .addtail tl t, q => (none, update q tl (q tl ++ [t]))
  | .insertafter tl onlist addee, q => (none, update q tl (insertAfter onlist addee (q tl)))
  | .insertbefore tl addee onlist, q => (none, update q tl (insertBefore addee onlist (q tl)))
  | .remhead tl, q => ((q tl).head?, update q tl (q tl).tail)
  | .remtail tl, q => ((q tl).getLast?, update q tl (q tl).dropLast)
  | .remove tl t, q => (none, update q tl ((q tl).erase t))

def absRun : List (Action L T) → Lists L T → List (Option T) × Lists L T
  | [], q => ([], q)
  | a::as, q =>
    let (r, q') := absStep a q
    let (rs, q'') := absRun as q'
    (r::rs, q'')

/-- A thread that is added is on no list; one that it is put next to, or that is removed, is on the list. -/
def Proper : Action L T → Lists L T → Prop
  | .addhead _ t, q => ∀ tl, t ∉ q tl
  | .addtail _ t, q => ∀ tl, t ∉ q tl
  | .insertafter tl onlist addee, q => onlist ∈ q tl ∧ ∀ tl, addee ∉ q tl
  | .insertbefore tl addee onlist, q => onlist ∈ q tl ∧ ∀ tl, addee ∉ q tl
  | .remhead _, _ => True
  | .remtail _, _ => True
  | .remove tl t, q => t ∈ q tl

def AllProper : List (Action L T) → Lists L T → Prop
  | [], _ => True
  | a::as, q => Proper a q ∧ AllProper as (absStep a q).2

/-- The nodes of a list with the threads `ts` on it. -/
def nodes (tl : L) (ts : List T) : List (Node L T) := .head tl :: (ts.map .thread ++ [.tail tl])

/-- The nodes of each list are in a row, and the threads on no list are by themselves. -/
structure Refines (s : State L T) (q : Lists L T) : Prop where
  row : ∀ tl, Row s.next s.prev (nodes tl (q tl))
  head : ∀ tl, s.prev (.head tl) = none
  tail : ∀ tl, s.next (.tail tl) = none
  nodup : ∀ tl, (q tl).Nodup
  apart : ∀ tl tl' t, t ∈ q tl → t ∈ q tl' → tl = tl'
  off : ∀ t, (∀ tl, t ∉ q tl) → s.prev (.thread t) = none ∧ s.next (.thread t) = none
  self : ∀ t, s.self (.thread t) = some t
  count : ∀ tl, s.count tl = (q tl).length

variable {s : State L T} {q : Lists L T} {tl tl' : L} {t x y : T} {ts us vs : List T} {a b n : Node L T}
  {ys zs : List (Node L T)}

omit [DecidableEq L] [DecidableEq T] in
theorem mem_nodes : n ∈ nodes tl ts ↔ n = .head tl ∨ (∃ t ∈ ts, n = .thread t) ∨ n = .tail tl := by
  simp [nodes, eq_comm]

omit [DecidableEq L] [DecidableEq T] in
@[simp] theorem thread_mem_nodes : Node.thread t ∈ nodes tl ts ↔ t ∈ ts := by simp [nodes]

omit [DecidableEq L] [DecidableEq T] in
theorem nodes_nodup : (nodes tl ts).Nodup ↔ ts.Nodup := by
  have hinj : Function.Injective (Node.thread : T → Node L T) := fun _ _ h => Node.thread.inj h
  simp [nodes, List.nodup_append, List.nodup_map_iff hinj]

omit [DecidableEq L] [DecidableEq T] in
theorem length_nodes : (nodes tl ts).length = ts.length + 2 := by simp [nodes]

omit [DecidableEq L] [DecidableEq T] in
/-- A node with another one after it is not at the tail, nor is the other one at the head. -/
theorem not_ends (h : nodes tl ts = ys ++ a::b::zs) (hd : ts.Nodup) : a ≠ .tail tl' ∧ b ≠ .head tl' := by
  have hnodup : (nodes tl ts).Nodup := nodes_nodup.mpr hd
  have ha : a ∈ nodes tl ts := by simp [h]
  have hb : b ∈ nodes tl ts := by simp [h]
  rw [mem_nodes] at ha hb
  constructor
  · rintro rfl
    have htl : tl' = tl := by simpa using ha
    subst htl
    have hlast : (nodes tl' ts).getLast? = some (.tail tl') := by
      rw [nodes, ← List.cons_append, List.getLast?_concat]
    rw [h] at hlast hnodup
    rw [List.getLast?_append_of_ne_nil _ (by simp), List.getLast?_cons_cons] at hlast
    exact (List.nodup_cons.mp (List.nodup_append.mp hnodup).2.1).1 (List.mem_of_getLast? hlast)
  · rintro rfl
    have htl : tl' = tl := by simpa using hb
    subst htl
    have hhead : (nodes tl' ts).head? = some (.head tl') := rfl
    rw [h, show ys ++ a::Node.head tl'::zs = (ys ++ [a]) ++ Node.head tl'::zs by simp] at hhead hnodup
    have hin : Node.head tl' ∈ ys ++ [a] := by
      apply List.mem_of_head?
      rwa [List.head?_append_of_ne_nil _ (by simp)] at hhead
    exact (List.nodup_append.mp hnodup).2.2 _ hin _ List.mem_cons_self rfl

/-- Node `x` comes between `a` and `b`. -/
def inserted (a x b : Node L T) (s : State L T) : State L T :=
  { s with
    next := update (update s.next x (some b)) a (some x)
    prev := update (update s.prev x (some a)) b (some x) }

/-- Node `x` goes from between `a` and `b`. -/
def removed (a x b : Node L T) (s : State L T) : State L T :=
  { s with
    next := update (update s.next a (some b)) x none
    prev := update (update s.prev b (some a)) x none }

theorem insertafternode_eq (hprev : s.prev (.thread x) = none) (hnext : s.next (.thread x) = none)
    (ha : a ≠ .thread x) (hab : s.next a = some b) : insertafternode a x s = .ok (inserted a (.thread x) b s) := by
  simp [insertafternode, linkIn, setNext, setPrev, inserted, hprev, hnext, ha.symm, hab]

theorem insertbeforenode_eq (hprev : s.prev (.thread x) = none) (hnext : s.next (.thread x) = none)
    (ha : a ≠ .thread x) (hab : s.prev b = some a) : insertbeforenode x b s = .ok (inserted a (.thread x) b s) := by
  simp [insertbeforenode, linkIn, setNext, setPrev, inserted, hprev, hnext, ha.symm, hab]

theorem removenode_eq (hprev : s.prev n = some a) (hnext : s.next n = some b) (ha : a ≠ n) :
    removenode n s = .ok (removed a n b s) := by
  simp [removenode, setNext, setPrev, removed, hprev, hnext, ha.symm]

omit [DecidableEq L] [DecidableEq T] in
theorem Refines.other (h : Refines s q) (hne : tl' ≠ tl) (hn : n ∈ nodes tl' (q tl')) : n ∉ nodes tl (q tl) := by
  rw [mem_nodes] at hn ⊢
  rintro (rfl | ⟨t, ht, rfl⟩ | rfl)
  · simp [hne.symm] at hn
  · have ht' : t ∈ q tl' := by simpa using hn
    exact hne (h.apart tl' tl t ht' ht)
  · simp [hne.symm] at hn

/-- A thread on no list is put between two nodes of a list. -/
theorem Refines.insert (h : Refines s q) (hx : ∀ tl, x ∉ q tl) (hold : nodes tl (q tl) = ys ++ a::b::zs)
    (hnew : nodes tl ts = ys ++ a::.thread x::b::zs) :
    Refines { inserted a (.thread x) b s with count := update s.count tl (s.count tl + 1) } (update q tl ts) := by
  have hmem : ∀ t, t ∈ ts ↔ t = x ∨ t ∈ q tl := by
    intro t
    have hts : Node.thread t ∈ nodes tl ts ↔ t ∈ ts := thread_mem_nodes
    have hq : Node.thread t ∈ nodes tl (q tl) ↔ t ∈ q tl := thread_mem_nodes
    rw [← hts, ← hq, hold, hnew]
    simp only [List.mem_append, List.mem_cons, Node.thread.injEq]
    tauto
  have ha : a ∈ nodes tl (q tl) := by simp [hold]
  have hb : b ∈ nodes tl (q tl) := by simp [hold]
  have hxnot : Node.thread x ∉ nodes tl (q tl) := by simpa using hx tl
  have hax : a ≠ .thread x := fun heq => hxnot (heq ▸ ha)
  have hbx : b ≠ .thread x := fun heq => hxnot (heq ▸ hb)
  have hd : (nodes tl (q tl)).Nodup := nodes_nodup.mpr (h.nodup tl)
  have hlength := congrArg List.length hold
  have hlength' := congrArg List.length hnew
  simp only [length_nodes, List.length_append, List.length_cons] at hlength hlength'
  have hfar : ∀ n, n ∉ nodes tl (q tl) → n ≠ .thread x →
      (inserted a (.thread x) b s).next n = s.next n ∧ (inserted a (.thread x) b s).prev n = s.prev n := by
    intro n hn hnx
    have hna : n ≠ a := fun heq => hn (heq ▸ ha)
    have hnb : n ≠ b := fun heq => hn (heq ▸ hb)
    simp [inserted, update_of_ne hna, update_of_ne hnb, update_of_ne hnx]
  refine ⟨?_, ?_, ?_, ?_, ?_, ?_, h.self, ?_⟩
  · intro l
    by_cases hl : l = tl
    · subst hl
      rw [update_self, hnew]
      have hrow := h.row l
      rw [hold] at hrow hd hxnot
      exact hrow.insert hd hxnot
    · rw [update_of_ne hl]
      have hout : ∀ n ∈ nodes l (q l), n ∉ nodes tl (q tl) ∧ n ≠ .thread x := by
        intro n hn
        refine ⟨h.other hl hn, ?_⟩
        rintro rfl
        exact hx l (thread_mem_nodes.mp hn)
      refine (h.row l).frame (fun n hn => ?_) (fun n hn => ?_)
      · obtain ⟨hn₁, hn₂⟩ := hout n (List.dropLast_subset _ hn)
        exact (hfar n hn₁ hn₂).1
      · obtain ⟨hn₁, hn₂⟩ := hout n (List.mem_of_mem_tail hn)
        exact (hfar n hn₁ hn₂).2
  · intro l
    have hbl : Node.head l ≠ b := (not_ends hold (h.nodup tl)).2.symm
    simpa [inserted, update_of_ne hbl] using h.head l
  · intro l
    have hal : Node.tail l ≠ a := (not_ends hold (h.nodup tl)).1.symm
    simpa [inserted, update_of_ne hal] using h.tail l
  · intro l
    by_cases hl : l = tl
    · subst hl
      have hts : (nodes l ts).Nodup ↔ ts.Nodup := nodes_nodup
      rw [update_self, ← hts, hnew]
      rw [hold] at hd hxnot
      simp only [List.nodup_append, List.nodup_cons, List.mem_append, List.mem_cons] at hd hxnot ⊢
      grind
    · rw [update_of_ne hl]
      exact h.nodup l
  · intro l l' t ht ht'
    by_cases hl : l = tl
    · by_cases hl' : l' = tl
      · rw [hl, hl']
      · rw [hl, update_self, hmem] at ht
        rw [update_of_ne hl'] at ht'
        rcases ht with rfl | ht
        · exact absurd ht' (hx l')
        · rw [hl]
          exact h.apart tl l' t ht ht'
    · rw [update_of_ne hl] at ht
      by_cases hl' : l' = tl
      · rw [hl', update_self, hmem] at ht'
        rcases ht' with rfl | ht'
        · exact absurd ht (hx l)
        · rw [hl']
          exact h.apart l tl t ht ht'
      · rw [update_of_ne hl'] at ht'
        exact h.apart l l' t ht ht'
  · intro t ht
    have htx : t ≠ x := by
      rintro rfl
      have hno := ht tl
      rw [update_self, hmem] at hno
      exact hno (.inl rfl)
    have hoff : ∀ l, t ∉ q l := by
      intro l hl
      have hno := ht l
      by_cases htl : l = tl
      · subst htl
        rw [update_self, hmem] at hno
        exact hno (.inr hl)
      · rw [update_of_ne htl] at hno
        exact hno hl
    obtain ⟨hnext, hprev⟩ := hfar (.thread t) (by simpa using hoff tl) (by simpa using htx)
    show (inserted a (.thread x) b s).prev (.thread t) = none ∧ (inserted a (.thread x) b s).next (.thread t) = none
    rw [hnext, hprev]
    exact h.off t hoff
  · intro l
    by_cases hl : l = tl
    · subst hl
      have hcount := h.count l
      simp only [update_self]
      omega
    · simp only [update_of_ne hl]
      exact h.count l

/-- A thread is taken out from between two nodes of its list. -/
theorem Refines.remove (h : Refines s q) (hold : nodes tl (q tl) = ys ++ a::.thread x::b::zs)
    (hnew : nodes tl ts = ys ++ a::b::zs) :
    Refines { removed a (.thread x) b s with count := update s.count tl (s.count tl - 1) } (update q tl ts) := by
  have hd : (nodes tl (q tl)).Nodup := nodes_nodup.mpr (h.nodup tl)
  have hmem : ∀ t, t ∈ ts ↔ t ≠ x ∧ t ∈ q tl := by
    intro t
    have hts : Node.thread t ∈ nodes tl ts ↔ t ∈ ts := thread_mem_nodes
    have hq : Node.thread t ∈ nodes tl (q tl) ↔ t ∈ q tl := thread_mem_nodes
    rw [← hts, ← hq, hold, hnew]
    rw [hold] at hd
    simp only [List.nodup_append, List.nodup_cons, List.mem_append, List.mem_cons] at hd ⊢
    grind
  have ha : a ∈ nodes tl (q tl) := by simp [hold]
  have hb : b ∈ nodes tl (q tl) := by simp [hold]
  have hxin : Node.thread x ∈ nodes tl (q tl) := by simp [hold]
  have hlength := congrArg List.length hold
  have hlength' := congrArg List.length hnew
  simp only [length_nodes, List.length_append, List.length_cons] at hlength hlength'
  have hfar : ∀ n, n ∉ nodes tl (q tl) →
      (removed a (.thread x) b s).next n = s.next n ∧ (removed a (.thread x) b s).prev n = s.prev n := by
    intro n hn
    have hna : n ≠ a := fun heq => hn (heq ▸ ha)
    have hnb : n ≠ b := fun heq => hn (heq ▸ hb)
    have hnx : n ≠ .thread x := fun heq => hn (heq ▸ hxin)
    simp [removed, update_of_ne hna, update_of_ne hnb, update_of_ne hnx]
  have hends : nodes tl (q tl) = (ys ++ [a]) ++ .thread x::b::zs := by simp [hold]
  refine ⟨?_, ?_, ?_, ?_, ?_, ?_, h.self, ?_⟩
  · intro l
    by_cases hl : l = tl
    · subst hl
      rw [update_self, hnew]
      have hrow := h.row l
      rw [hold] at hrow hd
      exact hrow.remove hd
    · rw [update_of_ne hl]
      refine (h.row l).frame (fun n hn => ?_) (fun n hn => ?_)
      · exact (hfar n (h.other hl (List.dropLast_subset _ hn))).1
      · exact (hfar n (h.other hl (List.mem_of_mem_tail hn))).2
  · intro l
    have hbl : Node.head l ≠ b := (not_ends hends (h.nodup tl)).2.symm
    simpa [removed, update_of_ne hbl] using h.head l
  · intro l
    have hal : Node.tail l ≠ a := (not_ends hold (h.nodup tl)).1.symm
    simpa [removed, update_of_ne hal] using h.tail l
  · intro l
    by_cases hl : l = tl
    · subst hl
      have hts : (nodes l ts).Nodup ↔ ts.Nodup := nodes_nodup
      rw [update_self, ← hts, hnew]
      rw [hold] at hd
      simp only [List.nodup_append, List.nodup_cons, List.mem_cons] at hd ⊢
      grind
    · rw [update_of_ne hl]
      exact h.nodup l
  · intro l l' t ht ht'
    have hsub : ∀ l, t ∈ update q tl ts l → t ∈ q l := by
      intro l ht
      by_cases hl : l = tl
      · rw [hl, update_self, hmem] at ht
        rw [hl]
        exact ht.2
      · rwa [update_of_ne hl] at ht
    exact h.apart l l' t (hsub l ht) (hsub l' ht')
  · intro t ht
    show (removed a (.thread x) b s).prev (.thread t) = none ∧ (removed a (.thread x) b s).next (.thread t) = none
    by_cases htx : t = x
    · subst htx
      exact ⟨update_self .., update_self ..⟩
    · have hoff : ∀ l, t ∉ q l := by
        intro l hl
        have hno := ht l
        by_cases htl : l = tl
        · subst htl
          rw [update_self, hmem] at hno
          exact hno ⟨htx, hl⟩
        · rw [update_of_ne htl] at hno
          exact hno hl
      obtain ⟨hnext, hprev⟩ := hfar (.thread t) (by simpa using hoff tl)
      rw [hnext, hprev]
      exact h.off t hoff
  · intro l
    by_cases hl : l = tl
    · subst hl
      have hcount := h.count l
      simp only [update_self]
      omega
    · simp only [update_of_ne hl]
      exact h.count l

omit [DecidableEq L] [DecidableEq T] in
/-- Neighbours on a list point at each other. -/
theorem Refines.linked (h : Refines s q) (hn : nodes tl (q tl) = ys ++ a::b::zs) :
    s.next a = some b ∧ s.prev b = some a := by
  have hrow := h.row tl
  rw [hn] at hrow
  exact (row_split.mp hrow).2.1

/-- Behind a node of a list. -/
theorem insertafter_spec (h : Refines s q) (hx : ∀ tl, x ∉ q tl) (hold : nodes tl (q tl) = ys ++ a::zs)
    (hzs : zs ≠ []) (hnew : nodes tl ts = ys ++ a::.thread x::zs) :
    ∃ s', countUp tl (insertafternode a x s) = .ok s' ∧ Refines s' (update q tl ts) := by
  obtain ⟨b, zs, rfl⟩ := List.exists_cons_of_ne_nil hzs
  obtain ⟨hprev, hnext⟩ := h.off x hx
  have hax : a ≠ .thread x := by
    rintro rfl
    have hin : Node.thread x ∈ nodes tl (q tl) := by simp [hold]
    exact hx tl (thread_mem_nodes.mp hin)
  rw [insertafternode_eq hprev hnext hax (h.linked hold).1]
  exact ⟨_, rfl, h.insert hx hold hnew⟩

/-- Before a node of a list. -/
theorem insertbefore_spec (h : Refines s q) (hx : ∀ tl, x ∉ q tl) (hold : nodes tl (q tl) = ys ++ b::zs)
    (hys : ys ≠ []) (hnew : nodes tl ts = ys ++ .thread x::b::zs) :
    ∃ s', countUp tl (insertbeforenode x b s) = .ok s' ∧ Refines s' (update q tl ts) := by
  obtain ⟨ys, a, rfl⟩ := List.eq_nil_or_concat ys |>.resolve_left hys
  rw [List.concat_eq_append, List.append_assoc, List.singleton_append] at hold hnew
  obtain ⟨hprev, hnext⟩ := h.off x hx
  have hax : a ≠ .thread x := by
    rintro rfl
    have hin : Node.thread x ∈ nodes tl (q tl) := by simp [hold]
    exact hx tl (thread_mem_nodes.mp hin)
  rw [insertbeforenode_eq hprev hnext hax (h.linked hold).2]
  exact ⟨_, rfl, h.insert hx hold hnew⟩

theorem remove_spec (h : Refines s q) (hold : nodes tl (q tl) = ys ++ .thread x::zs) (hys : ys ≠ []) (hzs : zs ≠ [])
    (hnew : nodes tl ts = ys ++ zs) :
    ∃ s', countDown tl (removenode (.thread x) s) = .ok s' ∧ Refines s' (update q tl ts) := by
  obtain ⟨b, zs, rfl⟩ := List.exists_cons_of_ne_nil hzs
  obtain ⟨ys, a, rfl⟩ := List.eq_nil_or_concat ys |>.resolve_left hys
  rw [List.concat_eq_append, List.append_assoc, List.singleton_append] at hold hnew
  have hends : nodes tl (q tl) = (ys ++ [a]) ++ .thread x::b::zs := by simp [hold]
  have hax : a ≠ .thread x := by
    rintro rfl
    have hd : (nodes tl (q tl)).Nodup := nodes_nodup.mpr (h.nodup tl)
    rw [hold] at hd
    simp [List.nodup_append] at hd
  have hcount : s.count tl ≠ 0 := by
    have hlength := congrArg List.length hold
    have hlength' := congrArg List.length hnew
    have hc := h.count tl
    simp only [length_nodes, List.length_append, List.length_cons] at hlength hlength'
    omega
  rw [removenode_eq (h.linked hold).2 (h.linked hends).1 hax]
  refine ⟨_, if_neg hcount, h.remove hold hnew⟩

omit [DecidableEq L] [DecidableEq T] in
theorem nodes_append (tl : L) (us vs : List T) :
    nodes tl (us ++ vs) = (.head tl :: us.map .thread) ++ (vs.map .thread ++ [.tail tl]) := by simp [nodes]

omit [DecidableEq L] in
theorem insertAfter_split (h : y ∈ ts) (x : T) : ∃ us vs, ts = us ++ y::vs ∧ insertAfter y x ts = us ++ y::x::vs := by
  induction ts with
  | nil => cases h
  | cons t ts ih =>
    by_cases ht : t = y
    · exact ⟨[], ts, by simp [ht], by simp [insertAfter, ht]⟩
    · obtain ⟨us, vs, hsplit, hins⟩ := ih ((List.mem_cons.mp h).resolve_left (Ne.symm ht))
      exact ⟨t::us, vs, by simp [hsplit], by simp [insertAfter, ht, hins]⟩

omit [DecidableEq L] in
theorem insertBefore_split (h : y ∈ ts) (x : T) : ∃ us vs, ts = us ++ y::vs ∧ insertBefore x y ts = us ++ x::y::vs := by
  induction ts with
  | nil => cases h
  | cons t ts ih =>
    by_cases ht : t = y
    · exact ⟨[], ts, by simp [ht], by simp [insertBefore, ht]⟩
    · obtain ⟨us, vs, hsplit, hins⟩ := ih ((List.mem_cons.mp h).resolve_left (Ne.symm ht))
      exact ⟨t::us, vs, by simp [hsplit], by simp [insertBefore, ht, hins]⟩

/-- The node next to the head is the tail, or that of the first thread. -/
theorem remhead_spec (h : Refines s q) (tl : L) :
    ∃ s', threadlistRemhead tl s = .ok ((q tl).head?, s') ∧ Refines s' (update q tl (q tl).tail) := by
  cases hq : q tl with
  | nil =>
    have hn : nodes tl (q tl) = [] ++ Node.head tl::.tail tl::[] := by simp [nodes, hq]
    refine ⟨s, ?_, ?_⟩
    · simp [threadlistRemhead, (h.linked hn).1, h.tail tl]
    · rwa [List.tail_nil, ← hq, update_eq_self]
  | cons t ts =>
    have hn : nodes tl (q tl) = [Node.head tl] ++ Node.thread t::(ts.map .thread ++ [.tail tl]) := by simp [nodes, hq]
    have hnew : nodes tl ts = [Node.head tl] ++ (ts.map .thread ++ [.tail tl]) := by simp [nodes]
    obtain ⟨s', hrun, hr⟩ := remove_spec h hn (by simp) (by simp) hnew
    obtain ⟨b, zs, hbz⟩ := List.exists_cons_of_ne_nil (l := ts.map .thread ++ [Node.tail tl]) (by simp)
    rw [hbz] at hn
    have hlater : nodes tl (q tl) = [] ++ Node.head tl::.thread t::(b::zs) := hn
    refine ⟨s', ?_, hr⟩
    simp [threadlistRemhead, (h.linked hlater).1, (h.linked hn).1, unlinkNode, hrun, hr.self t]

theorem remtail_spec (h : Refines s q) (tl : L) :
    ∃ s', threadlistRemtail tl s = .ok ((q tl).getLast?, s') ∧ Refines s' (update q tl (q tl).dropLast) := by
  obtain hq | ⟨ts, t, hq⟩ := List.eq_nil_or_concat (q tl)
  · have hn : nodes tl (q tl) = [] ++ Node.head tl::.tail tl::[] := by simp [nodes, hq]
    refine ⟨s, ?_, ?_⟩
    · simp [threadlistRemtail, (h.linked hn).2, h.head tl, hq]
    · rwa [show (q tl).dropLast = q tl by rw [hq, List.dropLast_nil], update_eq_self]
  · rw [List.concat_eq_append] at hq
    have hn : nodes tl (q tl) = (Node.head tl::ts.map .thread) ++ Node.thread t::[.tail tl] := by simp [nodes, hq]
    have hnew : nodes tl ts = (Node.head tl::ts.map .thread) ++ [.tail tl] := by simp [nodes]
    obtain ⟨s', hrun, hr⟩ := remove_spec h hn (by simp) (by simp) hnew
    have hlast : (q tl).dropLast = ts := by rw [hq, List.dropLast_concat]
    obtain ⟨ys, a, hya⟩ := List.eq_nil_or_concat (Node.head tl::ts.map .thread) |>.resolve_left (by simp)
    have hn' : nodes tl (q tl) = ys ++ a::.thread t::[.tail tl] := by
      rw [hn, hya, List.concat_eq_append, List.append_assoc, List.singleton_append]
    refine ⟨s', ?_, by rwa [hlast]⟩
    simp [threadlistRemtail, (h.linked hn).2, (h.linked hn').2, unlinkNode, hrun, hr.self t, hq]

/-- One action does to the nodes what it is meant to do to the lists. -/
theorem step_refines (h : Refines s q) (c : Action L T) (hc : Proper c q) :
    ∃ s', step c s = .ok ((absStep c q).1, s') ∧ Refines s' (absStep c q).2 := by
  have hsilent : ∀ {r : Except Stop (State L T)} {q' : Lists L T}, (∃ s', r = .ok s' ∧ Refines s' q') →
      ∃ s', silent r = .ok (none, s') ∧ Refines s' q' := by
    rintro r q' ⟨s', rfl, hr⟩
    exact ⟨s', rfl, hr⟩
  cases c with
  | addhead tl t => exact hsilent (insertafter_spec h hc (show _ = [] ++ _ from rfl) (by simp) rfl)
  | addtail tl t =>
    have hold : nodes tl (q tl) = (Node.head tl::(q tl).map .thread) ++ Node.tail tl::[] := by simp [nodes]
    exact hsilent (insertbefore_spec h hc hold (by simp) (by simp [nodes]))
  | insertafter tl onlist addee =>
    obtain ⟨us, vs, hsplit, hins⟩ := insertAfter_split hc.1 addee
    have hold : nodes tl (q tl) = (Node.head tl::us.map .thread) ++ Node.thread onlist::(vs.map .thread ++ [.tail tl]) := by
      rw [hsplit, nodes_append]
      rfl
    refine hsilent (insertafter_spec h hc.2 hold (by simp) ?_)
    rw [hins, nodes_append]
    rfl
  | insertbefore tl addee onlist =>
    obtain ⟨us, vs, hsplit, hins⟩ := insertBefore_split hc.1 addee
    have hold : nodes tl (q tl) = (Node.head tl::us.map .thread) ++ Node.thread onlist::(vs.map .thread ++ [.tail tl]) := by
      rw [hsplit, nodes_append]
      rfl
    refine hsilent (insertbefore_spec h hc.2 hold (by simp) ?_)
    rw [hins, nodes_append]
    rfl
  | remhead tl => exact remhead_spec h tl
  | remtail tl => exact remtail_spec h tl
  | remove tl t =>
    obtain ⟨us, vs, -, hsplit, herase⟩ := List.exists_erase_eq hc
    have hold : nodes tl (q tl) = (Node.head tl::us.map .thread) ++ Node.thread t::(vs.map .thread ++ [.tail tl]) := by
      rw [hsplit, nodes_append]
      rfl
    refine hsilent (remove_spec h hold (by simp) (by simp) ?_)
    rw [herase, nodes_append]

omit [DecidableEq L] [DecidableEq T] in
theorem initial_refines : Refines (initial : State L T) fun _ => [] where
  row _ := List.isChain_pair.mpr ⟨rfl, rfl⟩
  head _ := rfl
  tail _ := rfl
  nodup _ := List.nodup_nil
  apart _ _ _ h := absurd h List.not_mem_nil
  off _ _ := ⟨rfl, rfl⟩
  self _ := rfl
  count _ := rfl

/-- Initialising what is as at the beginning changes nothing. -/
theorem initial_init (tl : L) (t : T) :
    threadlistInit tl (initial : State L T) = initial ∧ threadlistnodeInit t (initial : State L T) = initial := by
  constructor
  · have hnext : update (initial : State L T).next (.head tl) (some (.tail tl)) = initial.next := update_eq_self _ _
    have hnext' : update (initial : State L T).next (.tail tl) none = initial.next := update_eq_self _ _
    have hprev : update (initial : State L T).prev (.head tl) none = initial.prev := update_eq_self _ _
    have hprev' : update (initial : State L T).prev (.tail tl) (some (.head tl)) = initial.prev := update_eq_self _ _
    have hself : update (initial : State L T).self (.head tl) none = initial.self := update_eq_self _ _
    have hself' : update (initial : State L T).self (.tail tl) none = initial.self := update_eq_self _ _
    have hcount : update (initial : State L T).count tl 0 = initial.count := update_eq_self _ _
    simp only [threadlistInit, hnext, hnext', hprev, hprev', hself, hself', hcount]
  · have hnext : update (initial : State L T).next (.thread t) none = initial.next := update_eq_self _ _
    have hprev : update (initial : State L T).prev (.thread t) none = initial.prev := update_eq_self _ _
    have hself : update (initial : State L T).self (.thread t) (some t) = initial.self := update_eq_self _ _
    simp only [threadlistnodeInit, hnext, hprev, hself]

omit [DecidableEq L] [DecidableEq T] in
theorem Refines.isempty (h : Refines s q) (tl : L) : threadlistIsempty tl s = true ↔ q tl = [] := by
  rw [threadlistIsempty, decide_eq_true_iff, h.count tl, List.length_eq_zero_iff]

theorem absRun_refines (h : Refines s q) (as : List (Action L T)) (has : AllProper as q) :
    ∃ s', run as s = .ok ((absRun as q).1, s') ∧ Refines s' (absRun as q).2 := by
  induction as generalizing s q with
  | nil => exact ⟨s, rfl, h⟩
  | cons c as ih =>
    obtain ⟨s', hstep, h'⟩ := step_refines h c has.1
    obtain ⟨s'', hrun, h''⟩ := ih h' has.2
    exact ⟨s'', by simp only [run, hstep, hrun, absRun], h''⟩

/-- From the beginning on, the lists are what they are meant to be. -/
theorem run_lists (as : List (Action L T)) (has : AllProper as fun _ => []) :
    ∃ s', run as initial = .ok ((absRun as fun _ => []).1, s') ∧ Refines s' (absRun as fun _ => []).2 :=
  absRun_refines initial_refines as has

/-- Three threads on one list, each put there in another way. -/
def threeThreads : List (Action Unit ℕ) :=
  [.addtail () 1, .addhead () 2, .insertafter () 2 3, .remtail (), .remove () 3, .remhead (), .remhead ()]

theorem threeThreads_lists : ∃ s', run threeThreads initial = .ok ((absRun threeThreads fun _ => []).1, s') ∧
    Refines s' (absRun threeThreads fun _ => []).2 :=
  run_lists threeThreads (by simp [threeThreads, AllProper, Proper, absStep, insertAfter])

end OS161.Threadlist
