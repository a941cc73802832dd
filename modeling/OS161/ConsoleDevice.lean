import OS161.ConsoleCalls
import OS161.Runs
import OS161.Turns

/-!
# The console as a device

Threads read and write `con:` with `con_io`, readers under one lock and writers under
another. Each character is a step of its own, and so is each transfer from or to the
memory of the caller, which may fail. The kernel prints what it likes in between.
-/

set_option autoImplicit false

namespace OS161.ConsoleDevice

open Function OS161.Runs OS161.Turns
open OS161.Vfs (Stop)
open OS161.ConsoleCalls (newline carriageReturn)

inductive Errno where
  | efault
  deriving DecidableEq

inductive Call where
  | read (resid : ℕ)
  | write (data : List UInt8)

/-- Where a thread is in `con_io`. It has `got` some characters, or has written the first `n`. -/
inductive Place where
  | idle (result : Option Errno)
  | wait (call : Call)
  | getting (resid : ℕ) (got : List UInt8)
  | storing (resid : ℕ) (got : List UInt8) (ch : UInt8)
  | readDone (resid : ℕ) (got : List UInt8) (lost : Option UInt8) (result : Option Errno)
  | moving (data : List UInt8) (n : ℕ)
  | feeding (data : List UInt8) (n : ℕ) (ch : UInt8)
  | putting (data : List UInt8) (n : ℕ) (ch : UInt8)
  | writeDone (data : List UInt8) (n : ℕ) (result : Option Errno)

/-- A call that is over: what was read, with the character `lost` that did not get to the caller, or how many
characters were written. -/
inductive Outcome where
  | read (resid : ℕ) (got : List UInt8) (lost : Option UInt8) (result : Option Errno)
  | write (data : List UInt8) (n : ℕ) (result : Option Errno)

/-- `typed`, `taken`, `calls` and `finished` only record the past. What the kernel prints has no thread. -/
structure State (T : Type) where
  readLock : Option T
  writeLock : Option T
  input : List UInt8
  output : List (Option T × UInt8)
  place : T → Place
  typed : List UInt8
  taken : List (T × UInt8)
  calls : List (T × Call)
  finished : List (T × Outcome)

inductive Action (T : Type) where
  | call (t : T) (call : Call)
  | advance (t : T) (fault : Bool)
  | type (ch : UInt8)
  | print (ch : UInt8)

variable {T : Type}

/-- What a reader gets for a character that was typed. -/
def cooked (ch : UInt8) : UInt8 := if ch = carriageReturn then newline else ch

/-- What a character is on the screen. -/
def shown (ch : UInt8) : List UInt8 := if ch = newline then [carriageReturn, newline] else [ch]

variable [DecidableEq T]

def State.goto (s : State T) (t : T) (x : Place) : State T := { s with place := update s.place t x }

/-- The next step of `con_io`; `fault` says that `uiomove` fails if it is called. -/
def advance (t : T) (fault : Bool) (s : State T) : Except Stop (State T) :=
  match s.place t with
  | .idle _ => .error .blocked
  | .wait (.read resid) =>
    if s.readLock = none then .ok ({ s with readLock := some t }.goto t (.getting resid [])) else .error .blocked
  | .wait (.write data) =>
    if s.writeLock = none then .ok ({ s with writeLock := some t }.goto t (.moving data 0)) else .error .blocked
  | .getting resid got =>
    if got.length < resid then
      match s.input with
      | [] => .error .blocked
      | ch::input =>
        .ok ({ s with input := input, taken := s.taken ++ [(t, cooked ch)] }.goto t (.storing resid got (cooked ch)))
    else .ok (s.goto t (.readDone resid got none none))
  | .storing resid got ch =>
    if fault = true then .ok (s.goto t (.readDone resid got (some ch) (some .efault)))
    else if ch = newline then .ok (s.goto t (.readDone resid (got ++ [ch]) none none))
    else .ok (s.goto t (.getting resid (got ++ [ch])))
  | .readDone resid got lost result =>
    .ok ({ s with readLock := none, finished := s.finished ++ [(t, Outcome.read resid got lost result)] }.goto t (.idle result))
  | .moving data n =>
    match data[n]? with
    | none => .ok (s.goto t (.writeDone data n none))
    | some ch =>
      if fault = true then .ok (s.goto t (.writeDone data n (some .efault)))
      else if ch = newline then .ok (s.goto t (.feeding data n ch))
      else .ok (s.goto t (.putting data n ch))
  | .feeding data n ch => .ok ({ s with output := s.output ++ [(some t, carriageReturn)] }.goto t (.putting data n ch))
  | .putting data n ch => .ok ({ s with output := s.output ++ [(some t, ch)] }.goto t (.moving data (n+1)))
  | .writeDone data n result =>
    .ok ({ s with writeLock := none, finished := s.finished ++ [(t, Outcome.write data n result)] }.goto t (.idle result))

def step : Action T → State T → Except Stop (State T)
  | .call t call, s =>
    match s.place t with
    | .idle _ => .ok ({ s with calls := s.calls ++ [(t, call)] }.goto t (.wait call))
    | _ => .error .blocked
  | .advance t fault, s => advance t fault s
  | .type ch, s => .ok { s with input := s.input ++ [ch], typed := s.typed ++ [ch] }
  | .print ch, s => .ok { s with output := s.output ++ [(none, ch)] }

abbrev run : List (Action T) → State T → Except Stop (State T) := Runs.run step

omit [DecidableEq T] in
def initial : State T := ⟨none, none, [], [], fun _ => .idle none, [], [], [], []⟩

/-- What is shown of these characters. -/
def printed (data : List UInt8) : List UInt8 := data.flatMap shown

/-- What a thread in a write has sent to the screen. -/
def Place.sent : Place → Option (List UInt8)
  | .moving data n | .feeding data n _ | .writeDone data n _ => some (printed (data.take n))
  | .putting data n ch => some (printed (data.take n) ++ if ch = newline then [carriageReturn] else [])
  | _ => none

/-- What a thread in a read has taken. -/
def Place.fetched : Place → Option (List UInt8)
  | .getting _ got => some got
  | .storing _ got ch => some (got ++ [ch])
  | .readDone _ got lost _ => some (got ++ lost.toList)
  | _ => none

/-- No more than was asked for, and nothing behind the end of a line; without an error, all of it or up to the end of a line. -/
structure Line (resid : ℕ) (got : List UInt8) (lost : Option UInt8) (result : Option Errno) : Prop where
  length : got.length ≤ resid
  ends : newline ∉ got.dropLast
  whole : result = none → lost = none ∧ (got.length = resid ∨ got.getLast? = some newline)

def Outcome.call : Outcome → Call
  | .read resid _ _ _ => .read resid
  | .write data _ _ => .write data

/-- A read is a line or a part of one, and a write without an error is all of its data. -/
def Outcome.Right : Outcome → Prop
  | .read resid got lost result => Line resid got lost result
  | .write data n result => result = none → data.take n = data

def readTurn : T × Outcome → Option (T × List UInt8)
  | (t, .read _ got lost _) => some (t, got ++ lost.toList)
  | (_, .write _ _ _) => none

def writeTurn : T × Outcome → Option (T × List UInt8)
  | (_, .read _ _ _ _) => none
  | (t, .write data n _) => some (t, printed (data.take n))

/-- The call that a thread is in. -/
def Place.pending : Place → List Call
  | .idle _ => []
  | .wait call => [call]
  | .getting resid _ | .storing resid _ _ | .readDone resid _ _ _ => [.read resid]
  | .moving data _ | .feeding data _ _ | .putting data _ _ | .writeDone data _ _ => [.write data]

def callsOf (calls : List (T × Call)) (t : T) : List Call := calls.filterMap fun c => if c.1 = t then some c.2 else none

def callsFinished (s : State T) : List (T × Call) := s.finished.map fun o => (o.1, o.2.call)

/-- What is on the screen without what the kernel has printed. -/
def called (output : List (Option T × UInt8)) : List (T × UInt8) := output.filterMap fun e => e.1.map fun t => (t, e.2)

def Facts : Place → Prop
  | .getting resid got => got.length ≤ resid ∧ newline ∉ got
  | .storing resid got _ => got.length < resid ∧ newline ∉ got
  | .readDone resid got lost result => Line resid got lost result
  | .feeding data n ch => data[n]? = some ch ∧ ch = newline
  | .putting data n ch => data[n]? = some ch
  | .writeDone data n result => result = none → data.take n = data
  | _ => True

structure Inv (s : State T) : Prop where
  writes : InTurns s.writeLock (Place.sent ∘ s.place) (s.finished.filterMap writeTurn) (called s.output)
  reads : InTurns s.readLock (Place.fetched ∘ s.place) (s.finished.filterMap readTurn) s.taken
  facts : ∀ t, Facts (s.place t)
  right : ∀ o ∈ s.finished, o.2.Right
  asked : ∀ t, callsOf s.calls t = callsOf (callsFinished s) t ++ (s.place t).pending
  typed : s.typed.map cooked = s.taken.map Prod.snd ++ s.input.map cooked

variable {s s' : State T} {t : T} {x : Place} {a : Action T} {as : List (Action T)} {fault : Bool}

theorem printed_next {data : List UInt8} {n : ℕ} {ch : UInt8} (h : data[n]? = some ch) :
    printed (data.take (n+1)) = printed (data.take n) ++ shown ch := by
  rw [List.take_add_one, h]
  simp [printed]

omit [DecidableEq T] in
theorem called_snoc (output : List (Option T × UInt8)) (t : T) (ch : UInt8) :
    called (output ++ [(some t, ch)]) = called output ++ items (t, [ch]) := by simp [called, items]

theorem facts_goto (h : ∀ u, Facts (s.place u)) (hx : Facts x) : ∀ u, Facts (update s.place t x u) := by
  intro u
  by_cases hu : u = t
  · rw [hu, update_self]
    exact hx
  · rw [update_of_ne hu]
    exact h u

/-- A thread goes on in its call. -/
theorem Inv.goes (h : Inv s) (hplace : s'.place = update s.place t x) (hpending : x.pending = (s.place t).pending) (hfacts : Facts x)
    (hcalls : s'.calls = s.calls) (hfinished : s'.finished = s.finished)
    (hwrites : InTurns s'.writeLock (Place.sent ∘ update s.place t x) (s.finished.filterMap writeTurn) (called s'.output))
    (hreads : InTurns s'.readLock (Place.fetched ∘ update s.place t x) (s.finished.filterMap readTurn) s'.taken)
    (htyped : s'.typed.map cooked = s'.taken.map Prod.snd ++ s'.input.map cooked) : Inv s' := by
  refine ⟨?_, ?_, ?_, ?_, fun u => ?_, htyped⟩
  · rw [hplace, hfinished]
    exact hwrites
  · rw [hplace, hfinished]
    exact hreads
  · rw [hplace]
    exact facts_goto h.facts hfacts
  · rw [hfinished]
    exact h.right
  · rw [hplace, hcalls, callsFinished, hfinished]
    by_cases hu : u = t
    · rw [hu, update_self, hpending]
      exact h.asked t
    · rw [update_of_ne hu]
      exact h.asked u

/-- A call comes to its end. -/
theorem Inv.ends {o : Outcome} {result : Option Errno} (h : Inv s) (hplace : s'.place = update s.place t (.idle result))
    (hpending : (s.place t).pending = [o.call]) (hright : o.Right) (hcalls : s'.calls = s.calls)
    (hfinished : s'.finished = s.finished ++ [(t, o)])
    (hwrites : InTurns s'.writeLock (Place.sent ∘ update s.place t (.idle result)) (s'.finished.filterMap writeTurn) (called s'.output))
    (hreads : InTurns s'.readLock (Place.fetched ∘ update s.place t (.idle result)) (s'.finished.filterMap readTurn) s'.taken)
    (htyped : s'.typed.map cooked = s'.taken.map Prod.snd ++ s'.input.map cooked) : Inv s' := by
  refine ⟨?_, ?_, ?_, fun p hp => ?_, fun u => ?_, htyped⟩
  · rw [hplace]
    exact hwrites
  · rw [hplace]
    exact hreads
  · rw [hplace]
    exact facts_goto h.facts trivial
  · rw [hfinished] at hp
    obtain hold | hnew := List.mem_append.mp hp
    · exact h.right p hold
    · rw [List.mem_singleton.mp hnew]
      exact hright
  · have hasked := h.asked u
    rw [hplace, hcalls, hasked, callsFinished, callsFinished, hfinished]
    by_cases hu : u = t
    · rw [hu, update_self, hpending]
      simp [callsOf, Place.pending]
    · rw [update_of_ne hu]
      simp [callsOf, Ne.symm hu]

theorem advance_keeps (h : Inv s) (hs : advance t fault s = .ok s') : Inv s' := by
  have hf := h.facts t
  -- A thread in a read does nothing to the screen, and one in a write nothing to the keyboard.
  have hscreen : ∀ x : Place, x.sent = (s.place t).sent →
      InTurns s.writeLock (Place.sent ∘ update s.place t x) (s.finished.filterMap writeTurn) (called s.output) := by
    intro x hsent
    rw [update_same _ hsent]
    exact h.writes
  have hkeyboard : ∀ x : Place, x.fetched = (s.place t).fetched →
      InTurns s.readLock (Place.fetched ∘ update s.place t x) (s.finished.filterMap readTurn) s.taken := by
    intro x hfetched
    rw [update_same _ hfetched]
    exact h.reads
  unfold advance at hs
  cases hx : s.place t with
  | idle result =>
    rw [hx] at hs
    cases hs
  | wait call =>
    rw [hx] at hs hscreen hkeyboard
    cases call with
    | read resid =>
      dsimp only at hs
      split at hs
      · next hfree =>
        cases hs
        have hreads := h.reads
        rw [hfree] at hreads
        refine h.goes rfl (by rw [hx]; rfl) ⟨Nat.zero_le _, List.not_mem_nil⟩ rfl rfl (hscreen _ rfl) ?_ h.typed
        rw [comp_update]
        exact hreads.acquire t
      · cases hs
    | write data =>
      dsimp only at hs
      split at hs
      · next hfree =>
        cases hs
        have hwrites := h.writes
        rw [hfree] at hwrites
        refine h.goes rfl (by rw [hx]; rfl) trivial rfl rfl ?_ (hkeyboard _ rfl) h.typed
        rw [comp_update]
        exact hwrites.acquire t
      · cases hs
  | getting resid got =>
    have hgot : (Place.fetched ∘ s.place) t = some got := by
      rw [comp_apply, hx]
      rfl
    rw [hx] at hs hf hscreen hkeyboard
    obtain ⟨hlength, hline⟩ := hf
    dsimp only at hs
    split at hs
    · next hmore =>
      cases hinput : s.input with
      | nil =>
        rw [hinput] at hs
        cases hs
      | cons ch input =>
        rw [hinput] at hs
        cases hs
        refine h.goes rfl (by rw [hx]; rfl) ⟨hmore, hline⟩ rfl rfl (hscreen _ rfl) ?_ ?_
        · rw [comp_update]
          exact h.reads.act hgot [cooked ch]
        · show s.typed.map cooked = (s.taken ++ [(t, cooked ch)]).map Prod.snd ++ input.map cooked
          rw [h.typed, hinput]
          simp
    · next hfull =>
      cases hs
      have hright : Line resid got none none :=
        ⟨hlength, fun hmem => hline (List.mem_of_mem_dropLast hmem), fun _ => ⟨rfl, .inl (by omega)⟩⟩
      exact h.goes rfl (by rw [hx]; rfl) hright rfl rfl (hscreen _ rfl) (hkeyboard _ (by simp [Place.fetched])) h.typed
  | storing resid got ch =>
    rw [hx] at hs hf hscreen hkeyboard
    obtain ⟨hlength, hline⟩ := hf
    dsimp only at hs
    split at hs
    · cases hs
      have hright : Line resid got (some ch) (some .efault) :=
        ⟨hlength.le, fun hmem => hline (List.mem_of_mem_dropLast hmem), fun hnone => by cases hnone⟩
      exact h.goes rfl (by rw [hx]; rfl) hright rfl rfl (hscreen _ rfl) (hkeyboard _ rfl) h.typed
    · split at hs
      · next hend =>
        cases hs
        have hmore : (got ++ [ch]).length ≤ resid := by
          rw [List.length_append]
          exact hlength
        have hright : Line resid (got ++ [ch]) none none := ⟨hmore, by simpa using hline, fun _ => ⟨rfl, .inr (by simp [hend])⟩⟩
        exact h.goes rfl (by rw [hx]; rfl) hright rfl rfl (hscreen _ rfl) (hkeyboard _ (by simp [Place.fetched])) h.typed
      · next hplain =>
        cases hs
        have hmore : (got ++ [ch]).length ≤ resid := by
          rw [List.length_append]
          exact hlength
        exact h.goes rfl (by rw [hx]; rfl) ⟨hmore, by simp [hline, Ne.symm hplain]⟩ rfl rfl (hscreen _ rfl) (hkeyboard _ rfl) h.typed
  | readDone resid got lost result =>
    have hgot : (Place.fetched ∘ s.place) t = some (got ++ lost.toList) := by
      rw [comp_apply, hx]
      rfl
    rw [hx] at hs hf hscreen
    cases hs
    refine h.ends (o := .read resid got lost result) rfl (by rw [hx]; rfl) hf rfl rfl ?_ ?_ h.typed
    · have hsame : (s.finished ++ [(t, Outcome.read resid got lost result)]).filterMap writeTurn = s.finished.filterMap writeTurn := by
        simp [writeTurn]
      show InTurns s.writeLock _ ((s.finished ++ [_]).filterMap writeTurn) _
      rw [hsame]
      exact hscreen _ rfl
    · show InTurns none _ ((s.finished ++ [_]).filterMap readTurn) _
      rw [comp_update, List.filterMap_append]
      exact h.reads.release hgot
  | moving data n =>
    rw [hx] at hs hscreen hkeyboard
    dsimp only at hs
    cases hch : data[n]? with
    | none =>
      rw [hch] at hs
      cases hs
      exact h.goes rfl (by rw [hx]; rfl) (fun _ => List.take_of_length_le (List.getElem?_eq_none_iff.mp hch)) rfl rfl (hscreen _ rfl)
        (hkeyboard _ rfl) h.typed
    | some ch =>
      rw [hch] at hs
      dsimp only at hs
      split at hs
      · cases hs
        exact h.goes rfl (by rw [hx]; rfl) (fun hnone => by cases hnone) rfl rfl (hscreen _ rfl) (hkeyboard _ rfl) h.typed
      · split at hs
        · next hend =>
          cases hs
          exact h.goes rfl (by rw [hx]; rfl) ⟨hch, hend⟩ rfl rfl (hscreen _ rfl) (hkeyboard _ rfl) h.typed
        · next hplain =>
          cases hs
          exact h.goes rfl (by rw [hx]; rfl) hch rfl rfl (hscreen _ (by simp [Place.sent, hplain])) (hkeyboard _ rfl) h.typed
  | feeding data n ch =>
    have hsent : (Place.sent ∘ s.place) t = some (printed (data.take n)) := by
      rw [comp_apply, hx]
      rfl
    rw [hx] at hs hf hkeyboard
    cases hs
    refine h.goes rfl (by rw [hx]; rfl) hf.1 rfl rfl ?_ (hkeyboard _ rfl) h.typed
    show InTurns s.writeLock _ _ (called (s.output ++ _))
    rw [comp_update, called_snoc, Place.sent, if_pos hf.2]
    exact h.writes.act hsent [carriageReturn]
  | putting data n ch =>
    have hsent : (Place.sent ∘ s.place) t = some (printed (data.take n) ++ if ch = newline then [carriageReturn] else []) := by
      rw [comp_apply, hx]
      rfl
    rw [hx] at hs hf hkeyboard
    have hshown : printed (data.take (n+1)) = (printed (data.take n) ++ if ch = newline then [carriageReturn] else []) ++ [ch] := by
      rw [printed_next hf, shown]
      split <;> simp [*]
    cases hs
    refine h.goes rfl (by rw [hx]; rfl) trivial rfl rfl ?_ (hkeyboard _ rfl) h.typed
    show InTurns s.writeLock _ _ (called (s.output ++ _))
    rw [comp_update, called_snoc, Place.sent, hshown]
    exact h.writes.act hsent [ch]
  | writeDone data n result =>
    have hsent : (Place.sent ∘ s.place) t = some (printed (data.take n)) := by
      rw [comp_apply, hx]
      rfl
    rw [hx] at hs hf hkeyboard
    cases hs
    refine h.ends (o := .write data n result) rfl (by rw [hx]; rfl) hf rfl rfl ?_ ?_ h.typed
    · show InTurns none _ ((s.finished ++ [_]).filterMap writeTurn) _
      rw [comp_update, List.filterMap_append]
      exact h.writes.release hsent
    · have hsame : (s.finished ++ [(t, Outcome.write data n result)]).filterMap readTurn = s.finished.filterMap readTurn := by
        simp [readTurn]
      show InTurns s.readLock _ ((s.finished ++ [_]).filterMap readTurn) _
      rw [hsame]
      exact hkeyboard _ rfl

theorem step_keeps (h : Inv s) (hs : step a s = .ok s') : Inv s' := by
  cases a with
  | call t call =>
    unfold step at hs
    dsimp only at hs
    split at hs
    · next result hx =>
      cases hs
      refine ⟨?_, ?_, facts_goto h.facts trivial, h.right, fun u => ?_, h.typed⟩
      · show InTurns s.writeLock (Place.sent ∘ update s.place t _) _ _
        rw [update_same _ (by rw [hx]; rfl)]
        exact h.writes
      · show InTurns s.readLock (Place.fetched ∘ update s.place t _) _ _
        rw [update_same _ (by rw [hx]; rfl)]
        exact h.reads
      · show callsOf (s.calls ++ [(t, call)]) u = callsOf (callsFinished s) u ++ (update s.place t _ u).pending
        have hasked := h.asked u
        by_cases hu : u = t
        · subst hu
          rw [hx] at hasked
          rw [update_self, callsOf, List.filterMap_append, ← callsOf, hasked]
          simp [Place.pending]
        · rw [update_of_ne hu, callsOf, List.filterMap_append, ← callsOf, hasked]
          simp [Ne.symm hu]
    · cases hs
  | advance t fault => exact advance_keeps h hs
  | type ch =>
    cases hs
    refine ⟨h.writes, h.reads, h.facts, h.right, h.asked, ?_⟩
    show (s.typed ++ [ch]).map cooked = s.taken.map Prod.snd ++ (s.input ++ [ch]).map cooked
    rw [List.map_append, List.map_append, h.typed, List.append_assoc]
  | print ch =>
    cases hs
    refine ⟨?_, h.reads, h.facts, h.right, h.asked, h.typed⟩
    have hsame : called (s.output ++ [(none, ch)]) = called s.output := by simp [called]
    show InTurns s.writeLock (Place.sent ∘ s.place) (s.finished.filterMap writeTurn) (called (s.output ++ _))
    rw [hsame]
    exact h.writes

theorem initial_inv : Inv (initial : State T) :=
  ⟨.begin _ fun _ => rfl, .begin _ fun _ => rfl, fun _ => trivial, fun o ho => (by cases ho), fun _ => rfl, rfl⟩

end OS161.ConsoleDevice
