import Mathlib.Algebra.Order.Monoid.Unbundled.WithTop
import Mathlib.Data.List.Basic
import Mathlib.Order.WithBot
import OS161.Chains
import OS161.Runs
import OS161.Vfs

/-!
# Threads that take locks in order

A thread carries out calls, each of which is a list of operations on locks.
Locks have levels. If every call takes locks of rising level only and gives all
of them back, threads never wait for each other in a circle. A recursive lock
may be entered again by its holder; it counts how often.
-/

set_option autoImplicit false

namespace OS161.LockOrder

open Function OS161.Vfs

/-- `enter` and `leave` are for recursive locks. In `pause` a thread waits for
something else than a lock. -/
inductive Op (K : Type) where
  | acquire (k : K)
  | release (k : K)
  | enter (k : K)
  | leave (k : K)
  | pause
  deriving DecidableEq

/-- `held` only records which locks each thread has taken, the last one first. -/
structure State (T K : Type) where
  holder : K → Option T
  depth : K → ℕ
  todo : T → List (Op K)
  held : T → List K

inductive Action (T A : Type) where
  | call (t : T) (a : A)
  | next (t : T)

variable {T K A : Type} [DecidableEq T] [DecidableEq K]

def State.taken (s : State T K) (t : T) (k : K) (ops : List (Op K)) : State T K :=
  { s with
    holder := update s.holder k (some t)
    todo := update s.todo t ops
    held := update s.held t (k :: s.held t) }

def State.freed (s : State T K) (t : T) (k : K) (ops : List (Op K)) : State T K :=
  { s with
    holder := update s.holder k none
    todo := update s.todo t ops
    held := update s.held t ((s.held t).erase k) }

/-- The holder takes or leaves a recursive lock without changing who has it. -/
def State.nested (s : State T K) (t : T) (k : K) (d : ℕ) (ops : List (Op K)) (ks : List K) : State T K :=
  { s with
    depth := update s.depth k d
    todo := update s.todo t ops
    held := update s.held t ks }

def next (t : T) (s : State T K) : Except Stop (State T K) :=
  match s.todo t with
  | [] => .error .blocked
  | .acquire k :: ops =>
    if s.holder k = some t then .error .panic
    else if s.holder k = none then .ok (s.taken t k ops)
    else .error .blocked
  | .release k :: ops =>
    if s.holder k = some t then .ok (s.freed t k ops) else .error .panic
  | .enter k :: ops =>
    if s.holder k = some t then
      if s.depth k = 0 then .error .panic
      else .ok (s.nested t k (s.depth k+1) ops (k :: s.held t))
    else if s.holder k = none then
      .ok { s.taken t k ops with depth := update s.depth k (s.depth k+1) }
    else .error .blocked
  | .leave k :: ops =>
    if s.holder k = some t ∧ 0 < s.depth k then
      if s.depth k = 1 then .ok { s.freed t k ops with depth := update s.depth k 0 }
      else .ok (s.nested t k (s.depth k-1) ops ((s.held t).erase k))
    else .error .panic
  | .pause :: ops => .ok { s with todo := update s.todo t ops }

/-- A thread that has finished its last call may make another one. -/
def step (trace : A → List (Op K)) (a : Action T A) (s : State T K) : Except Stop (State T K) :=
  match a with
  | .call t c => if s.todo t = [] then .ok { s with todo := update s.todo t (trace c) } else .error .blocked
  | .next t => next t s

def idle : State T K := ⟨fun _ => none, fun _ => 0, fun _ => [], fun _ => []⟩

/-- The lock a thread is about to take. -/
def wants : List (Op K) → Option K
  | .acquire k :: _ | .enter k :: _ => some k
  | _ => none

/-- The thread that keeps another one from going on. -/
def waitsFor (s : State T K) (t : T) : Option T :=
  match wants (s.todo t) with
  | none => none
  | some k => if s.holder k = some t then none else s.holder k

section Order

variable (level : K → ℕ) (recursive : K → Bool)

/-- The operations, begun with the locks `held`, take only locks above those
held, give back what they have and end with nothing. -/
def Safe : List (Op K) → List K → Prop
  | [], held => held = []
  | .acquire k :: ops, held =>
    recursive k = false ∧ (∀ j ∈ held, level j < level k) ∧ Safe ops (k :: held)
  | .release k :: ops, held => recursive k = false ∧ k ∈ held ∧ Safe ops (held.erase k)
  | .enter k :: ops, held =>
    recursive k = true ∧ (∀ j ∈ held, level j < level k ∨ j = k) ∧ Safe ops (k :: held)
  | .leave k :: ops, held => recursive k = true ∧ k ∈ held ∧ Safe ops (held.erase k)
  | .pause :: ops, held => Safe ops held

/-- A piece of a call that may run while locks satisfying `ok` are held, and
leaves them as they are. -/
def Block (ok : K → Prop) (ops : List (Op K)) : Prop :=
  ∀ held rest, (∀ j ∈ held, ok j) → Safe level recursive rest held → Safe level recursive (ops ++ rest) held

variable {level recursive} {ok : K → Prop} {ops ops' : List (Op K)} {k : K}

theorem Block.nil : Block level recursive ok [] := fun _ _ _ h => h

theorem Block.append (h : Block level recursive ok ops) (h' : Block level recursive ok ops') :
    Block level recursive ok (ops ++ ops') := by
  intro held rest hok hrest
  rw [List.append_assoc]
  exact h held _ hok (h' held rest hok hrest)

theorem Block.flatMap {α : Type} {f : α → List (Op K)} (h : ∀ a, Block level recursive ok (f a)) (as : List α) :
    Block level recursive ok (as.flatMap f) := by
  induction as with
  | nil => exact Block.nil
  | cons a as ih => exact (h a).append ih

theorem Block.pause : Block level recursive ok [.pause] := fun _ _ _ h => h

theorem Block.mono {ok' : K → Prop} (h : Block level recursive ok ops) (hok : ∀ j, ok' j → ok j) :
    Block level recursive ok' ops :=
  fun held rest hh hrest => h held rest (fun j hj => hok j (hh j hj)) hrest

omit [DecidableEq K] in
theorem held_cons {held : List K} (hok : ∀ j ∈ held, ok j) : ∀ j ∈ k :: held, ok j ∨ j = k := by
  intro j hj
  rcases List.mem_cons.mp hj with rfl | hj
  · exact .inr rfl
  · exact .inl (hok j hj)

theorem Block.locked (hk : recursive k = false) (hlt : ∀ j, ok j → level j < level k)
    (h : Block level recursive (fun j => ok j ∨ j = k) ops) :
    Block level recursive ok (.acquire k :: ops ++ [.release k]) := by
  intro held rest hok hrest
  refine ⟨hk, fun j hj => hlt j (hok j hj), ?_⟩
  show Safe level recursive (ops ++ [.release k] ++ rest) (k :: held)
  rw [List.append_assoc]
  refine h _ _ (held_cons hok) ⟨hk, List.mem_cons_self, ?_⟩
  rwa [List.erase_cons_head]

theorem Block.entered (hk : recursive k = true) (hlt : ∀ j, ok j → level j < level k ∨ j = k)
    (h : Block level recursive (fun j => ok j ∨ j = k) ops) :
    Block level recursive ok (.enter k :: ops ++ [.leave k]) := by
  intro held rest hok hrest
  refine ⟨hk, fun j hj => hlt j (hok j hj), ?_⟩
  show Safe level recursive (ops ++ [.leave k] ++ rest) (k :: held)
  rw [List.append_assoc]
  refine h _ _ (held_cons hok) ⟨hk, List.mem_cons_self, ?_⟩
  rwa [List.erase_cons_head]

theorem Block.safe (h : Block level recursive ok ops) : Safe level recursive ops [] := by
  have := h [] [] (by simp) rfl
  rwa [List.append_nil] at this

/-- What the locks say agrees with what each thread has taken. -/
structure Sound (level : K → ℕ) (recursive : K → Bool) (s : State T K) : Prop where
  safe : ∀ t, Safe level recursive (s.todo t) (s.held t)
  holder : ∀ k t, s.holder k = some t ↔ k ∈ s.held t
  plain : ∀ k t, recursive k = false → (s.held t).count k ≤ 1
  depth : ∀ k t, s.holder k = some t → s.depth k = if recursive k then (s.held t).count k else 0
  free : ∀ k, s.holder k = none → s.depth k = 0

variable {s s' : State T K} {t : T}

omit [DecidableEq T] in
theorem idle_sound : Sound level recursive (idle : State T K) := by
  refine ⟨fun _ => rfl, ?_, ?_, ?_, ?_⟩ <;> simp [idle]

omit [DecidableEq T] in
/-- A lock has one holder. -/
theorem Sound.held_unique (h : Sound level recursive s) {u : T} (ht : k ∈ s.held t) (hu : k ∈ s.held u) :
    t = u :=
  Option.some.inj (((h.holder k t).mpr ht).symm.trans ((h.holder k u).mpr hu))

omit [DecidableEq T] in
/-- A thread that waits waits for a lock above everything it holds. -/
theorem Sound.wants_above (h : Sound level recursive s) (hw : wants (s.todo t) = some k)
    (hk : s.holder k ≠ some t) : ∀ j ∈ s.held t, level j < level k := by
  have hsafe := h.safe t
  cases hops : s.todo t with
  | nil => simp [hops, wants] at hw
  | cons op ops =>
    rw [hops] at hsafe hw
    cases op with
    | acquire j =>
      cases hw
      exact hsafe.2.1
    | enter j =>
      cases hw
      intro i hi
      rcases hsafe.2.1 i hi with hlt | rfl
      · exact hlt
      · exact absurd ((h.holder _ _).mpr hi) hk
    | _ => simp [wants] at hw

/-- The level of the lock a thread waits for; a thread that waits for none is
above all. -/
def rank (level : K → ℕ) (s : State T K) (t : T) : WithTop ℕ :=
  match wants (s.todo t) with
  | none => ⊤
  | some k => if s.holder k = some t then ⊤ else level k

theorem Sound.acyclic (h : Sound level recursive s) : Chains.Acyclic (waitsFor s) := by
  apply Chains.acyclic_of_rank (rank level s)
  intro t u htu
  simp only [waitsFor] at htu
  split at htu
  · cases htu
  · next k hk =>
    split at htu
    · cases htu
    · next hne =>
      have hmem := (h.holder k u).mp htu
      simp only [rank, hk, if_neg hne]
      split
      · exact WithTop.coe_lt_top _
      · next j hj =>
        split
        · exact WithTop.coe_lt_top _
        · next hnj => exact WithTop.coe_lt_coe.mpr (h.wants_above hj hnj k hmem)

omit [DecidableEq T] in
/-- Between two calls a thread has nothing. -/
theorem Sound.returned (h : Sound level recursive s) (ht : s.todo t = []) (k : K) : s.holder k ≠ some t := by
  have hsafe := h.safe t
  rw [ht] at hsafe
  rw [Ne, h.holder, show s.held t = [] from hsafe]
  simp

/-- One thread goes on; the other ones keep what they have. -/
theorem Sound.move (h : Sound level recursive s) {ops : List (Op K)} {ks : List K} {holder : K → Option T}
    {depth : K → ℕ} (hsafe : Safe level recursive ops ks) (hown : ∀ j, holder j = some t ↔ j ∈ ks)
    (hother : ∀ j u, u ≠ t → (holder j = some u ↔ s.holder j = some u))
    (hplain : ∀ j, recursive j = false → ks.count j ≤ 1)
    (hdepth : ∀ j, holder j = some t → depth j = if recursive j then ks.count j else 0)
    (hkeep : ∀ j u, u ≠ t → holder j = some u → depth j = s.depth j)
    (hfree : ∀ j, holder j = none → depth j = 0) :
    Sound level recursive ⟨holder, depth, update s.todo t ops, update s.held t ks⟩ := by
  refine ⟨?_, ?_, ?_, ?_, hfree⟩
  · intro u
    by_cases hu : u = t
    · subst hu
      simpa using hsafe
    · simpa [update_of_ne hu] using h.safe u
  · intro j u
    by_cases hu : u = t
    · subst hu
      simpa using hown j
    · simpa [update_of_ne hu, hother j u hu] using h.holder j u
  · intro j u hj
    by_cases hu : u = t
    · subst hu
      simpa using hplain j hj
    · simpa [update_of_ne hu] using h.plain j u hj
  · intro j u hj
    by_cases hu : u = t
    · subst hu
      simpa using hdepth j hj
    · simpa [update_of_ne hu, hkeep j u hu hj] using h.depth j u ((hother j u hu).mp hj)

/-- A thread goes on without taking or giving back anything. -/
theorem Sound.pass (h : Sound level recursive s) (hsafe : Safe level recursive ops (s.held t)) :
    Sound level recursive { s with todo := update s.todo t ops } := by
  have hnew : Sound level recursive ⟨s.holder, s.depth, update s.todo t ops, update s.held t (s.held t)⟩ :=
    h.move hsafe (fun j => h.holder j t) (fun _ _ _ => Iff.rfl) (fun j => h.plain j t)
      (fun j => h.depth j t) (fun _ _ _ _ => rfl) h.free
  rwa [update_eq_self] at hnew

/-- A free lock is taken, and entered if it is recursive. -/
theorem Sound.take (h : Sound level recursive s) {d : ℕ} (hk : s.holder k = none)
    (hd : d = if recursive k then 1 else 0) (hsafe : Safe level recursive ops (k :: s.held t)) :
    Sound level recursive { s.taken t k ops with depth := update s.depth k d } := by
  have hnot : k ∉ s.held t := by
    rw [← h.holder, hk]
    simp
  show Sound level recursive ⟨update s.holder k (some t), update s.depth k d, _, _⟩
  refine h.move hsafe ?_ ?_ ?_ ?_ ?_ ?_
  · intro j
    by_cases hj : j = k
    · simp [hj]
    · simp [hj, h.holder]
  · intro j u hu
    by_cases hj : j = k
    · simp [hj, hk, Ne.symm hu]
    · simp [update_of_ne hj]
  · intro j hj
    by_cases hjk : j = k
    · subst hjk
      simp [List.count_eq_zero_of_not_mem hnot]
    · simpa [List.count_cons_of_ne (Ne.symm hjk)] using h.plain j t hj
  · intro j hj
    by_cases hjk : j = k
    · subst hjk
      simpa [List.count_eq_zero_of_not_mem hnot] using hd
    · simp only [update_of_ne hjk] at hj ⊢
      rw [List.count_cons_of_ne (Ne.symm hjk)]
      exact h.depth j t hj
  · intro j u hu hj
    by_cases hjk : j = k
    · simp [hjk, Ne.symm hu] at hj
    · simp [update_of_ne hjk]
  · intro j hj
    by_cases hjk : j = k
    · simp [hjk] at hj
    · simp only [update_of_ne hjk] at hj ⊢
      exact h.free j hj

/-- A lock that has been taken once is given back. -/
theorem Sound.drop (h : Sound level recursive s) (hone : (s.held t).count k ≤ 1)
    (hk : s.holder k = some t) (hsafe : Safe level recursive ops ((s.held t).erase k)) :
    Sound level recursive { s.freed t k ops with depth := update s.depth k 0 } := by
  have hnot : k ∉ (s.held t).erase k := by
    rw [← List.count_pos_iff, List.count_erase_self]
    omega
  show Sound level recursive ⟨update s.holder k none, update s.depth k 0, _, _⟩
  refine h.move hsafe ?_ ?_ ?_ ?_ ?_ ?_
  · intro j
    by_cases hj : j = k
    · simpa [hj] using hnot
    · simp [update_of_ne hj, List.mem_erase_of_ne hj, h.holder]
  · intro j u hu
    by_cases hj : j = k
    · simp [hj, hk, Ne.symm hu]
    · simp [update_of_ne hj]
  · intro j hj
    exact (List.erase_sublist.count_le j).trans (h.plain j t hj)
  · intro j hj
    by_cases hjk : j = k
    · simp [hjk] at hj
    · simp only [update_of_ne hjk] at hj ⊢
      rw [List.count_erase_of_ne hjk]
      exact h.depth j t hj
  · intro j u hu hj
    by_cases hjk : j = k
    · simp [hjk] at hj
    · simp [update_of_ne hjk]
  · intro j hj
    by_cases hjk : j = k
    · simp [hjk]
    · simp only [update_of_ne hjk] at hj ⊢
      exact h.free j hj

/-- The holder of a recursive lock goes deeper, or comes up without leaving it. -/
theorem Sound.nest (h : Sound level recursive s) {d : ℕ} {ks : List K} (hrec : recursive k = true)
    (hk : s.holder k = some t) (hmem : k ∈ ks) (hd : d = ks.count k)
    (hks : ∀ j, j ≠ k → (j ∈ ks ↔ j ∈ s.held t) ∧ ks.count j = (s.held t).count j)
    (hsafe : Safe level recursive ops ks) : Sound level recursive (s.nested t k d ops ks) := by
  show Sound level recursive ⟨s.holder, update s.depth k d, _, _⟩
  refine h.move hsafe ?_ (fun _ _ _ => Iff.rfl) ?_ ?_ ?_ ?_
  · intro j
    by_cases hj : j = k
    · simp [hj, hk, hmem]
    · rw [(hks j hj).1, h.holder]
  · intro j hj
    have hjk : j ≠ k := by
      rintro rfl
      rw [hrec] at hj
      cases hj
    rw [(hks j hjk).2]
    exact h.plain j t hj
  · intro j hj
    by_cases hjk : j = k
    · simp [hjk, hrec, hd]
    · rw [update_of_ne hjk, (hks j hjk).2]
      exact h.depth j t hj
  · intro j u hu hj
    have hjk : j ≠ k := by
      rintro rfl
      rw [hk] at hj
      exact hu (Option.some.inj hj).symm
    rw [update_of_ne hjk]
  · intro j hj
    have hjk : j ≠ k := by
      rintro rfl
      rw [hk] at hj
      cases hj
    rw [update_of_ne hjk]
    exact h.free j hj

theorem next_sound (h : Sound level recursive s) (hs : next t s = .ok s') : Sound level recursive s' := by
  have hsafe := h.safe t
  simp only [next] at hs
  split at hs
  · cases hs
  · next k ops hops =>
    rw [hops] at hsafe
    split at hs
    · cases hs
    · split at hs
      · next hk =>
        cases hs
        have := h.take (d := 0) hk (by simp [hsafe.1]) hsafe.2.2
        rwa [show update s.depth k 0 = s.depth from by rw [← h.free k hk, update_eq_self]] at this
      · cases hs
  · next k ops hops =>
    rw [hops] at hsafe
    split at hs
    · next hk =>
      cases hs
      have := h.drop (h.plain k t hsafe.1) hk hsafe.2.2
      have hz : s.depth k = 0 := by simp [h.depth k t hk, hsafe.1]
      rwa [show update s.depth k 0 = s.depth from by rw [← hz, update_eq_self]] at this
    · cases hs
  · next k ops hops =>
    rw [hops] at hsafe
    split at hs
    · next hk =>
      split at hs
      · cases hs
      · cases hs
        refine h.nest hsafe.1 hk List.mem_cons_self ?_ ?_ hsafe.2.2
        · rw [List.count_cons_self, h.depth k t hk, if_pos hsafe.1]
        · intro j hj
          exact ⟨by simp [hj], List.count_cons_of_ne (Ne.symm hj)⟩
    · split at hs
      · next hk =>
        cases hs
        rw [h.free k hk]
        exact h.take hk (by simp [hsafe.1]) hsafe.2.2
      · cases hs
  · next k ops hops =>
    rw [hops] at hsafe
    split at hs
    · next hk =>
      have hd := h.depth k t hk.1
      rw [if_pos hsafe.1] at hd
      split at hs
      · next hone =>
        cases hs
        exact h.drop (by omega) hk.1 hsafe.2.2
      · next hone =>
        cases hs
        refine h.nest hsafe.1 hk.1 ?_ ?_ ?_ hsafe.2.2
        · rw [← List.count_pos_iff, List.count_erase_self]
          omega
        · rw [List.count_erase_self, hd]
        · intro j hj
          exact ⟨List.mem_erase_of_ne hj, List.count_erase_of_ne hj⟩
    · cases hs
  · next ops hops =>
    rw [hops] at hsafe
    cases hs
    exact h.pass hsafe

omit [DecidableEq T] in
/-- A thread never takes a plain lock it has, and never gives back one it has not. -/
theorem Sound.unheld (h : Sound level recursive s) {ops : List (Op K)} (hops : s.todo t = .acquire k :: ops) :
    s.holder k ≠ some t := by
  have hsafe := h.safe t
  rw [hops] at hsafe
  rw [Ne, h.holder]
  exact fun hk => lt_irrefl _ (hsafe.2.1 k hk)

theorem next_stops (h : Sound level recursive s) {e : Stop} (hs : next t s = .error e) : e = .blocked := by
  have hsafe := h.safe t
  simp only [next] at hs
  split at hs
  · cases hs
    rfl
  · next k ops hops =>
    rw [if_neg (h.unheld hops)] at hs
    split at hs <;> cases hs
    rfl
  · next k ops hops =>
    rw [hops] at hsafe
    rw [if_pos ((h.holder k t).mpr hsafe.2.1)] at hs
    cases hs
  · next k ops hops =>
    rw [hops] at hsafe
    split at hs
    · next hk =>
      have hpos : s.depth k ≠ 0 := by
        rw [h.depth k t hk, if_pos hsafe.1]
        exact (List.count_pos_iff.mpr ((h.holder k t).mp hk)).ne'
      rw [if_neg hpos] at hs
      cases hs
    · split at hs <;> cases hs
      rfl
  · next k ops hops =>
    rw [hops] at hsafe
    have hk := (h.holder k t).mpr hsafe.2.1
    have hpos : 0 < s.depth k := by
      rw [h.depth k t hk, if_pos hsafe.1]
      exact List.count_pos_iff.mpr hsafe.2.1
    rw [if_pos ⟨hk, hpos⟩] at hs
    split at hs <;> cases hs
  · cases hs

variable {trace : A → List (Op K)}

theorem step_sound (htrace : ∀ a, Safe level recursive (trace a) []) {a : Action T A}
    (h : Sound level recursive s) (hs : step trace a s = .ok s') : Sound level recursive s' := by
  cases a with
  | next t => exact next_sound h hs
  | call t c =>
    simp only [step] at hs
    split at hs
    · next hidle =>
      cases hs
      have hheld : s.held t = [] := by
        have := h.safe t
        rwa [hidle] at this
      exact h.pass (hheld ▸ htrace c)
    · cases hs

/-- Calls that keep to the order never wait for each other in a circle, and a
thread that has returned has no lock. -/
theorem run_sound (htrace : ∀ a, Safe level recursive (trace a) []) {as : List (Action T A)}
    (hr : Runs.run (step trace) as idle = .ok s) : Sound level recursive s :=
  Runs.run_invariant (fun _ _ _ h hs => step_sound htrace h hs) idle_sound hr

end Order

end OS161.LockOrder
