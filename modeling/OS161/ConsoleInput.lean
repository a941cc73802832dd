import OS161.Channels
import OS161.Ring
import OS161.Runs

/-!
# Characters typed at the console

`con_input` runs in an interrupt, perhaps on another processor than the thread
that reads. The two share the buffer and the semaphore `cs_rsem`; `con_input`
alone moves the head, and the reader the tail. Each access to memory is a step.
-/

set_option autoImplicit false

namespace OS161.ConsoleInput

open Function OS161.Channels OS161.Vfs OS161.Runs

def CONSOLE_INPUT_BUFFER_SIZE : ℕ := 32

/-- What has become of a character, and how many there were to be read when it was dropped. -/
inductive Received where
  | kept (ch : UInt8)
  | dropped (ch : UInt8) (unread : ℕ)
  deriving DecidableEq

/-- The console and the count of its semaphore. `received` and `returned` only
record the characters in the order in which they have gone through. -/
structure Console where
  gotchars : ℕ → UInt8
  head : ℕ
  tail : ℕ
  count : UInt32
  received : List Received
  returned : List UInt8

/-- The characters from the tail to the head. -/
def Console.unread (c : Console) : ℕ :=
  (c.head + CONSOLE_INPUT_BUFFER_SIZE - c.tail) % CONSOLE_INPUT_BUFFER_SIZE

/-- There is one reader at a time, and one interrupt. -/
inductive Party where
  | reader
  | device
  deriving DecidableEq

inductive Call where
  | getch
  | input (ch : UInt8)
  deriving DecidableEq

/-- `getch_intr` with `P`, and `con_input` with `V`. In `take` the `P` is over. -/
inductive Place where
  | idle
  | pSpin | pTest | pSleep | pAsleep | pWoken | pDone
  | take | advance (ret : UInt8)
  | full (ch : UInt8) (nexthead : ℕ) | store (ch : UInt8) (nexthead : ℕ) | move (ch : UInt8) (nexthead : ℕ)
  | vSpin | vInc | vWake | vDone
  deriving DecidableEq

def start : Call → Party → Console → Except Stop (Console × Place)
  | .getch, .reader, c => .ok (c, .pSpin)
  | .input ch, .device, c => .ok (c, .full ch ((c.head+1) % CONSOLE_INPUT_BUFFER_SIZE))
  | _, _, _ => .error .blocked

/-- The head of the loop in `P`, and what follows it. -/
def test (c : Console) : Except Stop (Console × Place) :=
  if c.count = 0 then .ok (c, .pSleep) else .ok ({ c with count := c.count-1 }, .pDone)

def increment (c : Console) : Except Stop (Console × Place) :=
  if c.count+1 = 0 then .error .panic else .ok ({ c with count := c.count+1 }, .vWake)

/-- The buffer is full if the next head would be the tail. -/
def full (ch : UInt8) (nexthead : ℕ) (c : Console) : Console × Place :=
  if nexthead = c.tail then ({ c with received := c.received ++ [.dropped ch c.unread] }, .idle)
  else (c, .store ch nexthead)

/-- The tail is moved, and the character that has been read is returned. -/
def advance (ret : UInt8) (c : Console) : Console :=
  { c with tail := (c.tail+1) % CONSOLE_INPUT_BUFFER_SIZE, returned := c.returned ++ [ret] }

def store (ch : UInt8) (c : Console) : Console := { c with gotchars := update c.gotchars c.head ch }

def move (ch : UInt8) (nexthead : ℕ) (c : Console) : Console :=
  { c with head := nexthead, received := c.received ++ [.kept ch] }

def code : Place → Instr Party Unit Console Place Call
  | .idle => .act start
  | .pSpin => .spinAcquire () .pTest
  | .pTest => .act fun _ _ c => test c
  | .pSleep => .sleep () .pAsleep
  | .pAsleep => .halt
  | .pWoken => .spinAcquire () .pTest
  | .pDone => .spinRelease () .take
  | .take => .act fun _ _ c => .ok (c, .advance (c.gotchars c.tail))
  | .advance ret => .act fun _ _ c => .ok (advance ret c, .idle)
  | .full ch nexthead => .act fun _ _ c => .ok (full ch nexthead c)
  | .store ch nexthead => .act fun _ _ c => .ok (store ch c, .move ch nexthead)
  | .move ch nexthead => .act fun _ _ c => .ok (move ch nexthead c, .vSpin)
  | .vSpin => .spinAcquire () .vInc
  | .vInc => .act fun _ _ c => increment c
  | .vWake => .wakeOne () .vDone
  | .vDone => .spinRelease () .idle

def woken : Place → Place
  | .pAsleep => .pWoken
  | x => x

def program : Program Party Unit Console Place Call := ⟨code, woken⟩

abbrev Kernel := State Party Unit Console Place

abbrev step : Party × Call → Kernel → Except Stop Kernel := Channels.step program

/-- Nothing typed yet, and nobody reading. -/
def initial : Kernel where
  spin _ := none
  chan _ := []
  place _ := .idle
  mem := ⟨fun _ => 0, 0, 0, 0, [], []⟩
  now := 1
  since _ := 0

def spins : Place → Unit → Bool
  | .pTest, _ | .pSleep, _ | .pDone, _ | .vInc, _ | .vWake, _ | .vDone, _ => true
  | _, _ => false

def asleep : Place → Option Unit
  | .pAsleep => some ()
  | _ => none

/-- Whose place it is, if only one of the two can be there. -/
def role : Place → Option Party
  | .idle => none
  | .pSpin | .pTest | .pSleep | .pAsleep | .pWoken | .pDone | .take | .advance _ => some .reader
  | .full .. | .store .. | .move .. | .vSpin | .vInc | .vWake | .vDone => some .device

/-- A reader that has taken its unit and not moved the tail. -/
def took : Place → ℕ
  | .pDone | .take | .advance _ => 1
  | _ => 0

/-- A character in the buffer whose unit is still to come. -/
def posting : Place → ℕ
  | .vSpin | .vInc => 1
  | _ => 0

def kept : List Received → List UInt8 := List.filterMap fun r => match r with
  | .kept ch => some ch
  | .dropped .. => none

/-- What a party knows about the buffer where it is. -/
def Knows (c : Console) : Place → Prop
  | .advance ret => ret = c.gotchars c.tail
  | .full _ nexthead => nexthead = (c.head+1) % CONSOLE_INPUT_BUFFER_SIZE
  | .store _ nexthead => nexthead = (c.head+1) % CONSOLE_INPUT_BUFFER_SIZE ∧ c.unread+1 < CONSOLE_INPUT_BUFFER_SIZE
  | .move ch nexthead => nexthead = (c.head+1) % CONSOLE_INPUT_BUFFER_SIZE ∧
    c.unread+1 < CONSOLE_INPUT_BUFFER_SIZE ∧ c.gotchars c.head = ch
  | _ => True

/-- Characters go through the buffer in order, and one is dropped only if it is full. -/
structure InOrder (c : Console) : Prop where
  head : c.head < CONSOLE_INPUT_BUFFER_SIZE
  tail : c.tail < CONSOLE_INPUT_BUFFER_SIZE
  order : kept c.received = c.returned ++ Ring.contents c.gotchars CONSOLE_INPUT_BUFFER_SIZE c.tail c.unread
  dropped : ∀ ch n, .dropped ch n ∈ c.received → n+1 = CONSOLE_INPUT_BUFFER_SIZE

structure Inv (s : Kernel) : Prop where
  sound : Sound spins asleep s
  roles : ∀ t, role (s.place t) = none ∨ role (s.place t) = some t
  knows : ∀ t, Knows s.mem (s.place t)
  inOrder : InOrder s.mem
  count : s.mem.count.toNat + took (s.place .reader) + posting (s.place .device) = s.mem.unread

variable {s s' : Kernel} {c : Console} {t : Party} {call : Call} {ch ret : UInt8} {nexthead : ℕ} {x y : Place}

section Buffer

theorem unread_lt (c : Console) : c.unread < CONSOLE_INPUT_BUFFER_SIZE := Nat.mod_lt _ (by decide)

theorem InOrder.head_eq (h : InOrder c) : c.head = (c.tail + c.unread) % CONSOLE_INPUT_BUFFER_SIZE := by
  have hhead := h.head
  have htail := h.tail
  unfold Console.unread
  unfold CONSOLE_INPUT_BUFFER_SIZE at *
  omega

theorem InOrder.unread_move (h : InOrder c) (hfree : c.unread+1 < CONSOLE_INPUT_BUFFER_SIZE) (ch : UInt8) :
    (move ch ((c.head+1) % CONSOLE_INPUT_BUFFER_SIZE) c).unread = c.unread+1 := by
  have hhead := h.head
  have htail := h.tail
  simp only [Console.unread, move, CONSOLE_INPUT_BUFFER_SIZE] at *
  omega

theorem InOrder.unread_advance (h : InOrder c) (hsome : 0 < c.unread) (ret : UInt8) :
    (advance ret c).unread + 1 = c.unread := by
  have hhead := h.head
  have htail := h.tail
  simp only [Console.unread, advance, CONSOLE_INPUT_BUFFER_SIZE] at *
  omega

/-- The next head is the tail exactly if no slot is free but the one that is never used. -/
theorem InOrder.full_iff (h : InOrder c) :
    (c.head+1) % CONSOLE_INPUT_BUFFER_SIZE = c.tail ↔ c.unread+1 = CONSOLE_INPUT_BUFFER_SIZE := by
  have hhead := h.head
  have htail := h.tail
  unfold Console.unread
  unfold CONSOLE_INPUT_BUFFER_SIZE at *
  omega

theorem kept_append (rs rs' : List Received) : kept (rs ++ rs') = kept rs ++ kept rs' := List.filterMap_append

theorem InOrder.drop (h : InOrder c) (hfull : (c.head+1) % CONSOLE_INPUT_BUFFER_SIZE = c.tail) :
    InOrder { c with received := c.received ++ [.dropped ch c.unread] } := by
  refine ⟨h.head, h.tail, ?_, ?_⟩
  · rw [kept_append, h.order]
    exact List.append_nil _
  · intro ch' n hmem
    rcases List.mem_append.mp hmem with hold | hnew
    · exact h.dropped ch' n hold
    · simp only [List.mem_singleton, Received.dropped.injEq] at hnew
      rw [hnew.2]
      exact h.full_iff.mp hfull

/-- The slot of the head holds nothing that is still to be read. -/
theorem InOrder.store (h : InOrder c) (ch : UInt8) : InOrder (store ch c) := by
  refine ⟨h.head, h.tail, ?_, h.dropped⟩
  have hsame : Ring.contents (update c.gotchars c.head ch) CONSOLE_INPUT_BUFFER_SIZE c.tail c.unread =
      Ring.contents c.gotchars CONSOLE_INPUT_BUFFER_SIZE c.tail c.unread := by
    rw [h.head_eq]
    exact Ring.contents_store (unread_lt c) ch
  exact h.order.trans (congrArg (c.returned ++ ·) hsame.symm)

theorem InOrder.move (h : InOrder c) (hfree : c.unread+1 < CONSOLE_INPUT_BUFFER_SIZE) (hch : c.gotchars c.head = ch) :
    InOrder (ConsoleInput.move ch ((c.head+1) % CONSOLE_INPUT_BUFFER_SIZE) c) := by
  refine ⟨Nat.mod_lt _ (by decide), h.tail, ?_, ?_⟩
  · rw [h.unread_move hfree]
    simp only [ConsoleInput.move]
    rw [Ring.contents_succ, ← h.head_eq, hch, kept_append, h.order, List.append_assoc]
    rfl
  · intro ch' n hmem
    refine h.dropped ch' n ?_
    simpa [ConsoleInput.move] using hmem

theorem InOrder.advance (h : InOrder c) (hsome : 0 < c.unread) :
    InOrder (ConsoleInput.advance (c.gotchars c.tail) c) := by
  refine ⟨h.head, Nat.mod_lt _ (by decide), ?_, h.dropped⟩
  obtain ⟨left, hleft⟩ : ∃ left, (ConsoleInput.advance (c.gotchars c.tail) c).unread = left := ⟨_, rfl⟩
  have hunread := h.unread_advance hsome (c.gotchars c.tail)
  have hpop : Ring.contents c.gotchars CONSOLE_INPUT_BUFFER_SIZE c.tail (left+1) = _ := Ring.contents_pop h.tail
  rw [hleft] at hunread ⊢
  rw [hunread] at hpop
  simp only [ConsoleInput.advance]
  rw [List.append_assoc, List.singleton_append, ← hpop]
  exact h.order

/-- The first slot to be read is not the one of the head. -/
theorem InOrder.head_ne (h : InOrder c) (hsome : 0 < c.unread) : c.tail ≠ c.head := by
  rw [h.head_eq]
  have hne : (c.tail + 0) % CONSOLE_INPUT_BUFFER_SIZE ≠ (c.tail + c.unread) % CONSOLE_INPUT_BUFFER_SIZE :=
    Ring.slot_ne hsome (unread_lt c)
  rwa [Nat.add_zero, Nat.mod_eq_of_lt h.tail] at hne

end Buffer

theorem disciplined : Disciplined program spins asleep := by
  constructor
  · intro x f l t m m' y hc hf
    cases x with
    | idle =>
      cases hc
      cases l <;> cases t <;> cases hf <;> simp [asleep, spins]
    | pTest =>
      cases hc
      simp only [test] at hf
      split at hf <;> cases hf <;> simp [asleep, spins]
    | take =>
      cases hc
      cases hf
      simp [asleep, spins]
    | advance ret =>
      cases hc
      cases hf
      simp [asleep, spins]
    | full ch nexthead =>
      cases hc
      simp only [full] at hf
      split at hf <;> cases hf <;> simp [asleep, spins]
    | store ch nexthead =>
      cases hc
      cases hf
      simp [asleep, spins]
    | move ch nexthead =>
      cases hc
      cases hf
      simp [asleep, spins]
    | vInc =>
      cases hc
      simp only [increment] at hf
      split at hf <;> cases hf
      simp [asleep, spins]
    | _ => cases hc
  · intro x k y hc
    cases x <;> cases hc <;> simp [asleep, spins]
  · intro x k y hc
    cases x <;> cases hc <;> simp [asleep, spins]
  · intro x k y hc
    cases x <;> cases hc
    simp [asleep, spins]
  · intro x k y hc
    cases x <;> cases hc
    simp [asleep, spins]
  · intro x k y hc
    cases x <;> cases hc
  · intro x k hx
    cases x <;> simp_all [asleep, spins, program, woken]

/-- It is enough to look at the two parties. -/
theorem inv_of (hs : Sound spins asleep s) (hx : s.place .reader = x) (hy : s.place .device = y)
    (hrx : role x = none ∨ role x = some .reader) (hry : role y = none ∨ role y = some .device)
    (hkx : Knows s.mem x) (hky : Knows s.mem y) (ho : InOrder s.mem)
    (hc : s.mem.count.toNat + took x + posting y = s.mem.unread) : Inv s := by
  subst hx hy
  refine ⟨hs, fun t => ?_, fun t => ?_, ho, hc⟩
  · cases t
    · exact hrx
    · exact hry
  · cases t
    · exact hkx
    · exact hky

/-- A party goes on and leaves the memory as it is. -/
theorem Inv.goto {s₁ : Kernel} (h : Inv s) (hp : s₁.place = s.place) (hm : s₁.mem = s.mem)
    (hs : Sound spins asleep (s₁.goto t x)) (hr : role x = none ∨ role x = some t) (hk : Knows s.mem x)
    (htook : took x = took (s.place t)) (hpost : posting x = posting (s.place t)) : Inv (s₁.goto t x) := by
  have hc := h.count
  have hmem : (s₁.goto t x).mem = s.mem := hm
  cases t
  · have hdevice : (s₁.goto .reader x).place .device = s.place .device := by simp [State.goto, hp]
    refine inv_of hs (by simp [State.goto]) hdevice hr (h.roles .device) ?_ ?_ ?_ ?_ <;> rw [hmem]
    · exact hk
    · exact h.knows .device
    · exact h.inOrder
    · rw [htook]
      exact hc
  · have hreader : (s₁.goto .device x).place .reader = s.place .reader := by simp [State.goto, hp]
    refine inv_of hs hreader (by simp [State.goto]) (h.roles .reader) hr ?_ ?_ ?_ ?_ <;> rw [hmem]
    · exact h.knows .reader
    · exact hk
    · exact h.inOrder
    · rw [hpost]
      exact hc

/-- The reader does something to the memory. -/
theorem Inv.reader (h : Inv s) (hs : Sound spins asleep ({ s with mem := c }.goto .reader x))
    (hr : role x = none ∨ role x = some .reader) (hk : Knows c x) (hky : Knows c (s.place .device)) (ho : InOrder c)
    (hc : c.count.toNat + took x + posting (s.place .device) = c.unread) : Inv ({ s with mem := c }.goto .reader x) :=
  inv_of hs (by simp [State.goto]) (by simp [State.goto]) hr (h.roles .device) hk hky ho hc

/-- `con_input` does something to the memory. -/
theorem Inv.device (h : Inv s) (hs : Sound spins asleep ({ s with mem := c }.goto .device x))
    (hr : role x = none ∨ role x = some .device) (hk : Knows c x) (hky : Knows c (s.place .reader)) (ho : InOrder c)
    (hc : c.count.toNat + took (s.place .reader) + posting x = c.unread) : Inv ({ s with mem := c }.goto .device x) :=
  inv_of hs (by simp [State.goto]) (by simp [State.goto]) (h.roles .reader) hr hky hk ho hc

theorem role_reader (h : Inv s) (hr : role (s.place t) = some .reader) : t = .reader := by
  rcases h.roles t with hnone | hsome
  · rw [hnone] at hr
    cases hr
  · exact (Option.some.inj (hr.symm.trans hsome)).symm

theorem role_device (h : Inv s) (hr : role (s.place t) = some .device) : t = .device := by
  rcases h.roles t with hnone | hsome
  · rw [hnone] at hr
    cases hr
  · exact (Option.some.inj (hr.symm.trans hsome)).symm

/-- The reader moves the tail and returns what it has read. -/
theorem advance_inv (h : Inv s) (hp : s.place t = .advance ret)
    (hs : Sound spins asleep ({ s with mem := advance ret s.mem }.goto t .idle)) :
    Inv ({ s with mem := advance ret s.mem }.goto t .idle) := by
  obtain rfl := role_reader h (by rw [hp]; rfl)
  have hc := h.count
  have hret : ret = s.mem.gotchars s.mem.tail := by
    have hk := h.knows .reader
    rwa [hp] at hk
  rw [hp] at hc
  simp only [took] at hc
  have hsome : 0 < s.mem.unread := by omega
  have hunread := h.inOrder.unread_advance hsome ret
  subst hret
  refine h.reader hs (.inl rfl) trivial ?_ (h.inOrder.advance hsome) ?_
  · -- there is only more room now
    have hk := h.knows .device
    cases hd : s.place .device <;> rw [hd] at hk
    case full ch nexthead => exact hk
    case store ch nexthead =>
      have hfree := hk.2
      exact ⟨hk.1, by omega⟩
    case move ch nexthead =>
      have hfree := hk.2.1
      exact ⟨hk.1, by omega, hk.2.2⟩
    case advance ret =>
      rcases h.roles .device with hrole | hrole <;> rw [hd] at hrole <;> cases hrole
    all_goals trivial
  · have hsame : (advance (s.mem.gotchars s.mem.tail) s.mem).count = s.mem.count := rfl
    simp only [took, hsame]
    omega

/-- A reader that has read and not moved the tail. -/
theorem Inv.advancing (h : Inv s) (hr : s.place .reader = .advance ret) :
    ret = s.mem.gotchars s.mem.tail ∧ s.mem.tail ≠ s.mem.head := by
  have hk := h.knows .reader
  have hc := h.count
  rw [hr] at hk hc
  simp only [took] at hc
  exact ⟨hk, h.inOrder.head_ne (by omega)⟩

/-- What the reader knows does not depend on the slot of the head. -/
theorem Inv.reader_knows (h : Inv s) (ht : c.tail = s.mem.tail)
    (hslot : ∀ k, k ≠ s.mem.head → c.gotchars k = s.mem.gotchars k) : Knows c (s.place .reader) := by
  cases hr : s.place .reader
  case advance ret =>
    obtain ⟨hret, hne⟩ := h.advancing hr
    show ret = c.gotchars c.tail
    rw [ht, hslot _ hne]
    exact hret
  case full | store | move => rcases h.roles .reader with hrole | hrole <;> rw [hr] at hrole <;> cases hrole
  all_goals trivial

theorem store_inv (h : Inv s) (hp : s.place t = .store ch nexthead)
    (hs : Sound spins asleep ({ s with mem := store ch s.mem }.goto t (.move ch nexthead))) :
    Inv ({ s with mem := store ch s.mem }.goto t (.move ch nexthead)) := by
  obtain rfl := role_device h (by rw [hp]; rfl)
  have hc := h.count
  have hk := h.knows .device
  rw [hp] at hc hk
  refine h.device hs (.inr rfl) ⟨hk.1, hk.2, update_self ..⟩ ?_ (h.inOrder.store ch) hc
  exact h.reader_knows rfl fun k hne => update_of_ne hne ..

/-- The count never gets so high that it wraps. -/
theorem Inv.count_lt (h : Inv s) : s.mem.count.toNat < CONSOLE_INPUT_BUFFER_SIZE := by
  have hc := h.count
  have hlt := unread_lt s.mem
  omega

theorem Inv.count_succ (h : Inv s) : (s.mem.count+1).toNat = s.mem.count.toNat+1 := by
  have hmod : (s.mem.count+1).toNat = (s.mem.count.toNat+1) % 2^32 := UInt32.toNat_add _ _
  have hlt := h.count_lt
  unfold CONSOLE_INPUT_BUFFER_SIZE at hlt
  omega

theorem initial_inv : Inv initial := by
  refine inv_of (sound_of_idle ?_ ?_ ?_ ?_) rfl rfl (.inl rfl) (.inl rfl) trivial trivial ⟨?_, ?_, ?_, ?_⟩ rfl
  all_goals simp [initial, spins, asleep, kept, Console.unread, Ring.contents, CONSOLE_INPUT_BUFFER_SIZE]

end OS161.ConsoleInput
