import OS161.Channels
import OS161.LhdRetries
import OS161.Runs

/-!
# The disk and its interrupts

Any number of threads call `lhd_io`. The semaphore `lh_clear` lets one of them use the
device, and `lh_done` tells it that the interrupt handler has got an answer. A step is one
operation on a semaphore, on a register or on the buffer on the card; the device answers
in its own time. Semaphores are taken as they behave, and interrupts go to one processor.
-/

set_option autoImplicit false

namespace OS161.LhdDriver

open Function OS161.Runs
open OS161.Vfs (Stop)
open OS161.Sfs (Block zeros)
open OS161.SharedDescriptor (Rw)
open OS161.LhdRetries (LHD_SECTSIZE Answer)

def LHD_IDLE : ℕ := 0
def LHD_WORKING : ℕ := 1
def LHD_ISWRITE : ℕ := 2
def LHD_OK : ℕ := 4
def LHD_INVSECT : ℕ := 12
def LHD_MEDIA : ℕ := 20
def LHD_STATEMASK : ℕ := 0x1d

inductive Errno where
  | einval
  | eio
  | efault
  | eagain
  deriving DecidableEq

/-- No error is `none`. -/
def lhdCodeToErrno (code : ℕ) : Option Errno :=
  let state := code &&& LHD_STATEMASK
  if state = LHD_OK then none
  else if state = LHD_INVSECT then some .einval
  else if state = LHD_MEDIA then some .eio
  else some .eagain

/-- A transfer from or to the caller's memory; one that fails leaves the buffer on the card with some contents. -/
inductive Move where
  | whole
  | cut (left : Block)

/-- The arguments of a call; what it writes is in `data`, a block for each sector. -/
structure Request where
  rw : Rw
  sector : ℕ
  len : ℕ
  data : ℕ → Block

def Request.sectorAt (r : Request) (i : ℕ) : ℕ := (r.sector + i) % 2^32

/-- The value for the status register. -/
def Request.statval (r : Request) : ℕ :=
  match r.rw with
  | .read => LHD_WORKING
  | .write => LHD_WORKING ||| LHD_ISWRITE

/-- Where a thread is in `lhd_io`, at the sector with index `i`. -/
inductive Place where
  | idle (result : Option Errno)
  | clear (r : Request) (i : ℕ)
  | fill (r : Request) (i : ℕ)
  | select (r : Request) (i : ℕ)
  | start (r : Request) (i : ℕ)
  | await (r : Request) (i : ℕ)
  | fetch (r : Request) (i : ℕ)
  | drain (r : Request) (i : ℕ)
  | leave (r : Request) (i : ℕ) (result : Option Errno)

/-- Where `lhd_irq` is, with the status that it has read. -/
inductive Handler where
  | off
  | entered
  | answered (val : ℕ)
  | recording (val : ℕ)
  | signalling
  deriving DecidableEq

/-- What has been asked of a sector and what came of it. The block is what was written, or what was read without an error. -/
structure Record where
  rw : Rw
  sector : ℕ
  block : Option Block
  result : Option Errno

/-- A request that the device has answered, and whose it was. -/
structure Entry (T : Type) where
  user : Option T
  answer : Answer
  record : Record

/-- `user`, `log` and `seen` only record the past: who has the device, what it has answered, and what each thread
has been told. -/
structure State (T : Type) where
  sectors : ℕ → Block
  blocks : ℕ
  buf : Block
  sect : ℕ
  stat : ℕ
  clear : ℕ
  done : ℕ
  result : Option Errno
  handler : Handler
  place : T → Place
  user : Option T
  log : List (Entry T)
  seen : T → List Record

inductive Action (T : Type) where
  | call (t : T) (rw : Rw) (offset resid : ℕ) (data : ℕ → Block)
  | advance (t : T) (move : Move)
  | complete (answer : Answer)
  | interrupt

variable {T : Type}

/-- The status says that a request has been answered: the device asserts its interrupt. -/
def finished (stat : ℕ) : Bool :=
  let state := stat &&& LHD_STATEMASK
  state = LHD_OK ∨ state = LHD_INVSECT ∨ state = LHD_MEDIA

/-- A request as the device has been told of it, with what comes of it. -/
def recordOf (rw : Rw) (sector blocks : ℕ) (disk : ℕ → Block) (buf : Block) (answer : Answer) : Record :=
  let result := if blocks ≤ sector then some .einval else
    match answer with
    | .ok => none
    | .media _ => some .eio
  ⟨rw, sector, match rw, result with
    | .write, _ => some buf
    | .read, none => some (disk sector)
    | .read, some _ => none, result⟩

/-- The sectors after a request. -/
def carriedOut (rw : Rw) (sector blocks : ℕ) (disk : ℕ → Block) (buf : Block) (answer : Answer) : ℕ → Block :=
  if blocks ≤ sector then disk
  else
    match rw, answer with
    | .read, _ => disk
    | .write, .ok => update disk sector buf
    | .write, .media left => update disk sector left

/-- The device answers the request in its registers. -/
def complete (answer : Answer) (s : State T) : Except Stop (State T) :=
  if s.stat &&& LHD_STATEMASK = LHD_WORKING then
    let rw := if s.stat &&& LHD_ISWRITE = 0 then Rw.read else Rw.write
    let record := recordOf rw s.sect s.blocks s.sectors s.buf answer
    let code := if s.blocks ≤ s.sect then LHD_INVSECT else
      match answer with
      | .ok => LHD_OK
      | .media _ => LHD_MEDIA
    .ok { s with
      sectors := carriedOut rw s.sect s.blocks s.sectors s.buf answer
      buf := match rw, record.block with
        | .read, some block => block
        | _, _ => s.buf
      stat := code ||| (s.stat &&& LHD_ISWRITE)
      log := s.log ++ [⟨s.user, answer, record⟩] }
  else .error .blocked

/-- The next step of `lhd_irq`, which is called while the device asserts its interrupt. -/
def lhdIrq (s : State T) : Except Stop (State T) :=
  match s.handler with
  | .off => if finished s.stat then .ok { s with handler := .entered } else .error .blocked
  | .entered => .ok { s with handler := if finished s.stat then .answered s.stat else .off }
  | .answered val => .ok { s with stat := 0, handler := .recording val }
  -- lhd_iodone
  | .recording val => .ok { s with result := lhdCodeToErrno val, handler := .signalling }
  | .signalling => .ok { s with done := s.done + 1, handler := .off }

variable [DecidableEq T]

def State.goto (s : State T) (t : T) (x : Place) : State T := { s with place := update s.place t x }

/-- The thread has been told what came of its request. -/
def State.told (s : State T) (t : T) (record : Record) : State T := { s with seen := update s.seen t (s.seen t ++ [record]) }

/-- What a call asks for. -/
def asked (rw : Rw) (offset resid : ℕ) (data : ℕ → Block) : Request :=
  ⟨rw, offset / LHD_SECTSIZE % 2^32, resid / LHD_SECTSIZE % 2^32, data⟩

/-- `lhd_io` up to its loop. -/
def lhdIo (t : T) (rw : Rw) (offset resid : ℕ) (data : ℕ → Block) (s : State T) : Except Stop (State T) :=
  let r := asked rw offset resid data
  match s.place t with
  | .idle _ =>
    if offset % LHD_SECTSIZE ≠ 0 ∨ resid % LHD_SECTSIZE ≠ 0 then .ok (s.goto t (.idle (some .einval)))
    else if s.blocks < (r.sector + r.len) % 2^32 then .ok (s.goto t (.idle (some .einval)))
    else if r.len = 0 then .ok (s.goto t (.idle none))
    else .ok (s.goto t (.clear r 0))
  | _ => .error .blocked

/-- The next step of a call. -/
def advance (t : T) (move : Move) (s : State T) : Except Stop (State T) :=
  match s.place t with
  | .idle _ => .error .blocked
  -- P(lh_clear)
  | .clear r i =>
    if s.clear = 0 then .error .blocked
    else .ok ({ s with clear := s.clear - 1, user := some t }.goto t (if r.rw = Rw.write then .fill r i else .select r i))
  | .fill r i =>
    match move with
    | .whole => .ok ({ s with buf := r.data i }.goto t (.select r i))
    | .cut left => .ok ({ s with buf := left }.goto t (.leave r i (some .efault)))
  | .select r i => .ok ({ s with sect := r.sectorAt i }.goto t (.start r i))
  | .start r i => .ok ({ s with stat := r.statval }.goto t (.await r i))
  -- P(lh_done)
  | .await r i =>
    if s.done = 0 then .error .blocked
    else .ok ({ s with done := s.done - 1 }.goto t (.fetch r i))
  | .fetch r i =>
    match r.rw, s.result with
    | .read, none => .ok (s.goto t (.drain r i))
    | .read, some e => .ok ((s.told t ⟨.read, r.sectorAt i, none, some e⟩).goto t (.leave r i (some e)))
    | .write, result => .ok ((s.told t ⟨.write, r.sectorAt i, some (r.data i), result⟩).goto t (.leave r i result))
  | .drain r i =>
    .ok ((s.told t ⟨.read, r.sectorAt i, some s.buf, none⟩).goto t (.leave r i (match move with
      | .whole => none
      | .cut _ => some .efault)))
  -- V(lh_clear)
  | .leave r i result =>
    .ok ({ s with clear := s.clear + 1, user := none }.goto t (match result with
      | some e => .idle (some e)
      | none => if i+1 < r.len then .clear r (i+1) else .idle none))

def step : Action T → State T → Except Stop (State T)
  | .call t rw offset resid data, s => lhdIo t rw offset resid data s
  | .advance t move, s => advance t move s
  | .complete answer, s => complete answer s
  | .interrupt, s => lhdIrq s

abbrev run : List (Action T) → State T → Except Stop (State T) := Runs.run step

omit [DecidableEq T] in
/-- `config_lhd`: a device with these sectors that nobody has used yet. -/
def configured (sectors : ℕ → Block) (blocks : ℕ) (buf : Block) : State T where
  sectors := sectors
  blocks := blocks
  buf := buf
  sect := 0
  stat := 0
  clear := 1
  done := 0
  result := none
  handler := .off
  place _ := .idle none
  user := none
  log := []
  seen _ := []

/-- What the device has answered to a thread. -/
def answersTo (s : State T) (t : T) : List Record := (s.log.filter fun e => e.user = some t).map Entry.record

/-- The thread has taken `lh_clear` and not given it back. -/
def Place.busy : Place → Bool
  | .idle _ | .clear _ _ => false
  | _ => true

/-- The index is that of one of the sectors. -/
def Place.InRange : Place → Prop
  | .idle _ => True
  | .clear r i | .fill r i | .select r i | .start r i | .await r i | .fetch r i | .drain r i | .leave r i _ => i < r.len

/-- Nothing is asked of the device, and nothing is to be heard of it. -/
structure Quiet (s : State T) : Prop where
  stat : s.stat = 0
  done : s.done = 0
  handler : s.handler = .off

/-- A record is what the thread has asked for at this index. -/
structure AskedBy (r : Request) (i : ℕ) (s : State T) (record : Record) : Prop where
  rw : record.rw = r.rw
  sector : record.sector = r.sectorAt i
  written : r.rw = .write → record.block = some (r.data i)
  failed : r.rw = .read → record.result ≠ none → record.block = none
  read : r.rw = .read → record.result = none → record.block = some s.buf

/-- The answer is on its way to the thread: in the status register, in the handler, or behind `lh_done`. -/
inductive Delivery (s : State T) (result : Option Errno) : Prop
  | asserted (hfinished : finished s.stat = true) (hcode : lhdCodeToErrno s.stat = result) (hdone : s.done = 0)
      (hhandler : s.handler = .off ∨ s.handler = .entered ∨ s.handler = .answered s.stat)
  | recording (val : ℕ) (hstat : s.stat = 0) (hcode : lhdCodeToErrno val = result) (hdone : s.done = 0)
      (hhandler : s.handler = .recording val)
  | signalling (hstat : s.stat = 0) (hresult : s.result = result) (hdone : s.done = 0) (hhandler : s.handler = .signalling)
  | signalled (hstat : s.stat = 0) (hresult : s.result = result) (hdone : s.done = 1) (hhandler : s.handler = .off)

/-- The device has the request and has not answered it. -/
structure Working (r : Request) (i : ℕ) (s : State T) : Prop where
  stat : s.stat = r.statval
  sect : s.sect = r.sectorAt i
  buf : r.rw = .write → s.buf = r.data i
  done : s.done = 0
  handler : s.handler = .off

/-- The device has given its answer, and the thread has not been told. -/
def Answered (r : Request) (i : ℕ) (s : State T) (t : T) (record : Record) : Prop :=
  AskedBy r i s record ∧ answersTo s t = s.seen t ++ [record]

/-- What holds of a thread that has the device. -/
def Facts (s : State T) (t : T) : Place → Prop
  | .idle _ | .clear _ _ => answersTo s t = s.seen t
  | .fill r _ => r.rw = .write ∧ Quiet s ∧ answersTo s t = s.seen t
  | .select r i => (r.rw = .write → s.buf = r.data i) ∧ Quiet s ∧ answersTo s t = s.seen t
  | .start r i => s.sect = r.sectorAt i ∧ (r.rw = .write → s.buf = r.data i) ∧ Quiet s ∧ answersTo s t = s.seen t
  | .await r i => (Working r i s ∧ answersTo s t = s.seen t) ∨ ∃ record, Answered r i s t record ∧ Delivery s record.result
  | .fetch r i => Quiet s ∧ ∃ record, Answered r i s t record ∧ s.result = record.result
  | .drain r i => Quiet s ∧ r.rw = .read ∧ ∃ record, Answered r i s t record ∧ record.result = none
  | .leave _ _ _ => Quiet s ∧ answersTo s t = s.seen t

/-- One request after the other: what each of them reads is what the ones before it have left. -/
inductive Served (blocks : ℕ) (disk : ℕ → Block) : List (Entry T) → (ℕ → Block) → Prop
  | nil : Served blocks disk [] disk
  | snoc {log : List (Entry T)} {disk' : ℕ → Block} (user : Option T) (rw : Rw) (sector : ℕ) (buf : Block) (answer : Answer)
      (h : Served blocks disk log disk') :
      Served blocks disk (log ++ [⟨user, answer, recordOf rw sector blocks disk' buf answer⟩])
        (carriedOut rw sector blocks disk' buf answer)

structure Inv (blocks : ℕ) (disk : ℕ → Block) (s : State T) : Prop where
  held : ∀ t, (s.place t).busy = true ↔ s.user = some t
  clear : s.clear = if s.user = none then 1 else 0
  unused : s.user = none → Quiet s
  range : ∀ t, (s.place t).InRange
  facts : ∀ t, Facts s t (s.place t)
  size : s.blocks = blocks
  served : Served blocks disk s.log s.sectors

variable {blocks : ℕ} {disk : ℕ → Block} {buf : Block} {s s' : State T} {t u : T} {x y : Place} {r : Request} {i : ℕ}
  {record : Record} {answer : Answer} {move : Move} {a : Action T} {as : List (Action T)}

/-! The status register. -/

theorem statval_working (r : Request) : r.statval &&& LHD_STATEMASK = LHD_WORKING := by
  unfold Request.statval
  cases r.rw <;> rfl

theorem statval_rw (r : Request) : (if r.statval &&& LHD_ISWRITE = 0 then Rw.read else Rw.write) = r.rw := by
  unfold Request.statval
  cases r.rw <;> rfl

/-- The status that the device answers with stands for what came of the request. -/
theorem answered_stat (r : Request) (sector blocks : ℕ) (disk : ℕ → Block) (buf : Block) (answer : Answer) :
    let code := if blocks ≤ sector then LHD_INVSECT else
      match answer with
      | .ok => LHD_OK
      | .media _ => LHD_MEDIA
    finished (code ||| (r.statval &&& LHD_ISWRITE)) = true ∧
    lhdCodeToErrno (code ||| (r.statval &&& LHD_ISWRITE)) = (recordOf r.rw sector blocks disk buf answer).result := by
  unfold Request.statval recordOf
  by_cases hout : blocks ≤ sector
  · simp only [hout, if_true]
    cases r.rw <;> exact ⟨rfl, rfl⟩
  · simp only [hout, if_false]
    cases r.rw <;> cases answer <;> dsimp only <;> exact ⟨rfl, rfl⟩

omit [DecidableEq T] in
theorem Quiet.unfinished (h : Quiet s) : finished s.stat = false := by
  rw [h.stat]
  rfl

omit [DecidableEq T] in
/-- While nothing is asked of it the device does nothing. -/
theorem Quiet.complete (h : Quiet s) : complete answer s = .error .blocked := by
  unfold LhdDriver.complete
  rw [h.stat]
  rfl

omit [DecidableEq T] in
theorem Quiet.lhdIrq (h : Quiet s) : lhdIrq s = .error .blocked := by
  unfold LhdDriver.lhdIrq
  rw [h.handler]
  simp only [h.unfinished, Bool.false_eq_true, if_false]

/-! One thread at a time. -/

theorem facts_idle (hx : x.busy = false) : Facts s t x ↔ answersTo s t = s.seen t := by
  cases x <;> first | exact Iff.rfl | cases hx

/-- A thread that has the device waits for it, or the device does nothing. -/
theorem quiet_or_await (h : Facts s t x) (hx : x.busy = true) : Quiet s ∨ ∃ r i, x = .await r i := by
  cases x with
  | idle result => cases hx
  | clear r i => cases hx
  | fill r i => exact .inl h.2.1
  | select r i => exact .inl h.2.1
  | start r i => exact .inl h.2.2.1
  | await r i => exact .inr ⟨r, i, rfl⟩
  | fetch r i => exact .inl h.1
  | drain r i => exact .inl h.1
  | leave r i result => exact .inl h.1

/-- The places of threads do not matter to what holds of one. -/
theorem facts_goto (y : Place) : Facts (s.goto t x) u y ↔ Facts s u y := by
  have hquiet : Quiet (s.goto t x) ↔ Quiet s := ⟨fun h => ⟨h.stat, h.done, h.handler⟩, fun h => ⟨h.stat, h.done, h.handler⟩⟩
  have hworking : ∀ r i, Working r i (s.goto t x) ↔ Working r i s :=
    fun r i => ⟨fun h => ⟨h.stat, h.sect, h.buf, h.done, h.handler⟩, fun h => ⟨h.stat, h.sect, h.buf, h.done, h.handler⟩⟩
  have hanswered : ∀ r i record, Answered r i (s.goto t x) u record ↔ Answered r i s u record :=
    fun r i record => ⟨fun h => ⟨⟨h.1.rw, h.1.sector, h.1.written, h.1.failed, h.1.read⟩, h.2⟩,
      fun h => ⟨⟨h.1.rw, h.1.sector, h.1.written, h.1.failed, h.1.read⟩, h.2⟩⟩
  have hdelivery : ∀ result, Delivery (s.goto t x) result ↔ Delivery s result := by
    intro result
    constructor
    · intro h
      cases h with
      | asserted h₁ h₂ h₃ h₄ => exact .asserted h₁ h₂ h₃ h₄
      | recording val h₁ h₂ h₃ h₄ => exact .recording val h₁ h₂ h₃ h₄
      | signalling h₁ h₂ h₃ h₄ => exact .signalling h₁ h₂ h₃ h₄
      | signalled h₁ h₂ h₃ h₄ => exact .signalled h₁ h₂ h₃ h₄
    · intro h
      cases h with
      | asserted h₁ h₂ h₃ h₄ => exact .asserted h₁ h₂ h₃ h₄
      | recording val h₁ h₂ h₃ h₄ => exact .recording val h₁ h₂ h₃ h₄
      | signalling h₁ h₂ h₃ h₄ => exact .signalling h₁ h₂ h₃ h₄
      | signalled h₁ h₂ h₃ h₄ => exact .signalled h₁ h₂ h₃ h₄
  cases y with
  | idle result => exact Iff.rfl
  | clear r i => exact Iff.rfl
  | fill r i => exact and_congr Iff.rfl (and_congr hquiet Iff.rfl)
  | select r i => exact and_congr Iff.rfl (and_congr hquiet Iff.rfl)
  | start r i => exact and_congr Iff.rfl (and_congr Iff.rfl (and_congr hquiet Iff.rfl))
  | await r i => exact or_congr (and_congr (hworking r i) Iff.rfl) (exists_congr fun record => and_congr (hanswered r i record) (hdelivery _))
  | fetch r i => exact and_congr hquiet (exists_congr fun record => and_congr (hanswered r i record) Iff.rfl)
  | drain r i => exact and_congr hquiet (and_congr Iff.rfl (exists_congr fun record => and_congr (hanswered r i record) Iff.rfl))
  | leave r i result => exact and_congr hquiet Iff.rfl

/-- A thread that is in no call, or begins one. -/
theorem Inv.calls (h : Inv blocks disk s) (hold : (s.place t).busy = false) (hnew : x.busy = false) (hrange : x.InRange) :
    Inv blocks disk (s.goto t x) := by
  have hplace : ∀ u, u ≠ t → (s.goto t x).place u = s.place u := fun u hu => update_of_ne hu _ _
  have hself : (s.goto t x).place t = x := update_self _ _ _
  refine ⟨fun u => ?_, h.clear, fun hnone => ⟨(h.unused hnone).stat, (h.unused hnone).done, (h.unused hnone).handler⟩,
    fun u => ?_, fun u => ?_, h.size, h.served⟩
  · by_cases hu : u = t
    · subst hu
      rw [hself, hnew]
      show false = true ↔ s.user = some u
      rw [← h.held u, hold]
    · rw [hplace u hu]
      exact h.held u
  · by_cases hu : u = t
    · subst hu
      rwa [hself]
    · rw [hplace u hu]
      exact h.range u
  · by_cases hu : u = t
    · subst hu
      rw [hself]
      exact (facts_idle hnew).mpr (show answersTo s u = s.seen u from (facts_idle hold).mp (h.facts u))
    · rw [hplace u hu]
      exact (facts_goto _).mpr (h.facts u)

/-- A step of the thread that has the device, or takes it. -/
theorem Inv.moves (h : Inv blocks disk s) (hmine : s.user = none ∨ s.user = some t) (hplace : s'.place = update s.place t x)
    (huser : s'.user = if x.busy then some t else none) (hclear : s'.clear = if x.busy then 0 else 1)
    (hrange : x.InRange) (hquiet : x.busy = false → Quiet s') (hfacts : Facts s' t x)
    (hlog : s'.log = s.log) (hseen : ∀ u, u ≠ t → s'.seen u = s.seen u) (hsectors : s'.sectors = s.sectors)
    (hblocks : s'.blocks = s.blocks) : Inv blocks disk s' := by
  have hother : ∀ u, u ≠ t → s'.place u = s.place u := fun u hu => by rw [hplace, update_of_ne hu]
  have hself : s'.place t = x := by rw [hplace, update_self]
  have hidle : ∀ u, u ≠ t → (s.place u).busy = false := by
    intro u hu
    refine Bool.eq_false_of_not_eq_true fun hbusy => ?_
    have huser := (h.held u).mp hbusy
    obtain hnone | hsome := hmine
    · rw [hnone] at huser
      cases huser
    · rw [hsome] at huser
      exact hu (Option.some.inj huser).symm
  refine ⟨fun u => ?_, ?_, fun hnone => ?_, fun u => ?_, fun u => ?_, hblocks.trans h.size, ?_⟩
  · by_cases hu : u = t
    · subst hu
      rw [hself, huser]
      cases x.busy <;> simp
    · rw [hother u hu, hidle u hu, huser]
      cases x.busy
      · simp
      · simp [Ne.symm hu]
  · rw [hclear, huser]
    cases x.busy <;> rfl
  · refine hquiet (Bool.eq_false_of_not_eq_true fun hbusy => ?_)
    rw [huser, hbusy] at hnone
    cases hnone
  · by_cases hu : u = t
    · subst hu
      rwa [hself]
    · rw [hother u hu]
      exact h.range u
  · by_cases hu : u = t
    · subst hu
      rwa [hself]
    · rw [hother u hu]
      refine (facts_idle (hidle u hu)).mpr ?_
      rw [hseen u hu, ← (facts_idle (hidle u hu)).mp (h.facts u), answersTo, hlog]
      rfl
  · rw [hlog, hsectors]
    exact h.served

/-- A step of the device or of the handler, while thread `t` has the device. -/
theorem Inv.serves (h : Inv blocks disk s) (huser : s.user = some t) (hplace : s'.place = s.place) (huser' : s'.user = s.user)
    (hclear : s'.clear = s.clear) (hseen : s'.seen = s.seen) (hothers : ∀ u, u ≠ t → answersTo s' u = answersTo s u)
    (hfacts : Facts s' t (s.place t)) (hblocks : s'.blocks = s.blocks) (hserved : Served blocks disk s'.log s'.sectors) : Inv blocks disk s' := by
  refine ⟨fun u => ?_, ?_, fun hnone => ?_, fun u => ?_, fun u => ?_, hblocks.trans h.size, hserved⟩
  · rw [hplace, huser']
    exact h.held u
  · rw [hclear, huser']
    exact h.clear
  · rw [huser', huser] at hnone
    cases hnone
  · rw [hplace]
    exact h.range u
  · rw [hplace]
    by_cases hu : u = t
    · rw [hu]
      exact hfacts
    · have hidle : (s.place u).busy = false := by
        refine Bool.eq_false_of_not_eq_true fun hbusy => ?_
        rw [(h.held u).mp hbusy] at huser
        exact hu (Option.some.inj huser)
      rw [facts_idle hidle, hothers u hu, hseen]
      exact (facts_idle hidle).mp (h.facts u)

omit [DecidableEq T] in
theorem finished_complete (hstat : finished s.stat = true) : complete answer s = .error .blocked := by
  unfold complete
  refine if_neg fun hworking => ?_
  unfold finished at hstat
  rw [hworking] at hstat
  cases hstat

omit [DecidableEq T] in
theorem Delivery.complete (h : Delivery s record.result) : complete answer s = .error .blocked := by
  have hzero : s.stat = 0 → LhdDriver.complete answer s = .error .blocked := by
    intro hstat
    unfold LhdDriver.complete
    rw [hstat]
    rfl
  cases h with
  | asserted hfinished => exact finished_complete hfinished
  | recording val hstat => exact hzero hstat
  | signalling hstat => exact hzero hstat
  | signalled hstat => exact hzero hstat

omit [DecidableEq T] in
/-- What the device makes of a request that it has. -/
theorem complete_answers (hw : Working r i s) (hs : complete answer s = .ok s') :
    ∃ record, record = recordOf r.rw s.sect s.blocks s.sectors s.buf answer ∧ AskedBy r i s' record ∧ Delivery s' record.result ∧
    s' = { s with
      sectors := carriedOut r.rw s.sect s.blocks s.sectors s.buf answer
      buf := s'.buf
      stat := s'.stat
      log := s.log ++ [⟨s.user, answer, record⟩] } := by
  unfold complete at hs
  rw [if_pos (by rw [hw.stat]; exact statval_working r)] at hs
  dsimp only at hs
  rw [hw.stat, statval_rw] at hs
  obtain ⟨hfinished, hcode⟩ := answered_stat r s.sect s.blocks s.sectors s.buf answer
  cases hs
  refine ⟨_, rfl, ⟨rfl, hw.sect, fun hwrite => ?_, fun hread hfailed => ?_, fun hread hok => ?_⟩, ?_, rfl⟩
  · rw [← hw.buf hwrite]
    unfold recordOf
    rw [hwrite]
  · unfold recordOf at hfailed ⊢
    rw [hread]
    dsimp only at hfailed ⊢
    split
    · contradiction
    · contradiction
    · rfl
  · unfold recordOf at hok ⊢
    rw [hread]
    dsimp only at hok ⊢
    rw [hok]
  · exact .asserted hfinished hcode hw.done (.inl hw.handler)

/-- The device does nothing, or a thread waits for what it has asked of it. -/
theorem Inv.device (h : Inv blocks disk s) : Quiet s ∨ ∃ t r i, s.user = some t ∧ s.place t = .await r i ∧
    ((Working r i s ∧ answersTo s t = s.seen t) ∨ ∃ record, Answered r i s t record ∧ Delivery s record.result) := by
  cases huser : s.user with
  | none => exact .inl (h.unused huser)
  | some t =>
    have hf := h.facts t
    obtain hquiet | ⟨r, i, hx⟩ := quiet_or_await hf ((h.held t).mpr huser)
    · exact .inl hquiet
    · rw [hx] at hf
      exact .inr ⟨t, r, i, rfl, hx, hf⟩

/-- The device answers a thread that waits for it. -/
theorem Inv.completes (h : Inv blocks disk s) (hs : complete answer s = .ok s') :
    ∃ t r i, s.user = some t ∧ s.place t = .await r i ∧ Working r i s ∧ answersTo s t = s.seen t := by
  obtain hquiet | ⟨t, r, i, huser, hx, ⟨hworking, hanswers⟩ | ⟨record, -, hdelivery⟩⟩ := h.device
  · rw [hquiet.complete] at hs
    cases hs
  · exact ⟨t, r, i, huser, hx, hworking, hanswers⟩
  · rw [hdelivery.complete] at hs
    cases hs

theorem complete_keeps (h : Inv blocks disk s) (hs : complete answer s = .ok s') : Inv blocks disk s' := by
  obtain ⟨t, r, i, huser, hx, hworking, hanswers⟩ := h.completes hs
  obtain ⟨record, hrecord, hasked, hdelivery, heq⟩ := complete_answers hworking hs
  have hlog : s'.log = s.log ++ [⟨s.user, answer, record⟩] := by rw [heq]
  refine h.serves huser (by rw [heq]) (by rw [heq]) (by rw [heq]) (by rw [heq]) (fun u hu => ?_) ?_ (by rw [heq]) ?_
  · have hne : ¬s.user = some u := fun hsame => hu (Option.some.inj (hsame.symm.trans huser))
    simp [answersTo, hlog, hne]
  · rw [hx]
    refine .inr ⟨record, ⟨hasked, ?_⟩, hdelivery⟩
    have hseen : s'.seen = s.seen := by rw [heq]
    rw [hseen, ← hanswers]
    simp [answersTo, hlog, huser]
  · have hsectors : s'.sectors = carriedOut r.rw s.sect s.blocks s.sectors s.buf answer := by rw [heq]
    rw [hlog, hsectors, hrecord, h.size]
    exact .snoc s.user r.rw s.sect s.buf answer h.served

omit [DecidableEq T] in
/-- The handler takes the answer a step further. -/
theorem Delivery.next (h : Delivery s record.result) (hs : lhdIrq s = .ok s') :
    Delivery s' record.result ∧
    s' = { s with stat := s'.stat, done := s'.done, result := s'.result, handler := s'.handler } := by
  unfold lhdIrq at hs
  cases h with
  | asserted hfinished hcode hdone hhandler =>
    obtain hoff | hentered | hanswered := hhandler
    · rw [hoff] at hs
      simp only [hfinished, if_true] at hs
      cases hs
      exact ⟨.asserted hfinished hcode hdone (.inr (.inl rfl)), rfl⟩
    · rw [hentered] at hs
      simp only [hfinished, if_true] at hs
      cases hs
      exact ⟨.asserted hfinished hcode hdone (.inr (.inr rfl)), rfl⟩
    · rw [hanswered] at hs
      cases hs
      exact ⟨.recording s.stat rfl hcode hdone rfl, rfl⟩
  | recording val hstat hcode hdone hhandler =>
    rw [hhandler] at hs
    cases hs
    exact ⟨.signalling hstat hcode hdone rfl, rfl⟩
  | signalling hstat hresult hdone hhandler =>
    rw [hhandler] at hs
    cases hs
    exact ⟨.signalled hstat hresult (by rw [hdone]) rfl, rfl⟩
  | signalled hstat hresult hdone hhandler =>
    rw [hhandler] at hs
    have hunfinished : finished s.stat = false := by
      rw [hstat]
      rfl
    simp only [hunfinished, Bool.false_eq_true, if_false] at hs
    cases hs

omit [DecidableEq T] in
theorem Working.lhdIrq (h : Working r i s) : lhdIrq s = .error .blocked := by
  have hunfinished : finished s.stat = false := by
    unfold finished
    rw [h.stat, statval_working]
    rfl
  unfold LhdDriver.lhdIrq
  rw [h.handler]
  simp only [hunfinished, Bool.false_eq_true, if_false]

/-- The handler has an answer for a thread that waits for it. -/
theorem Inv.interrupts (h : Inv blocks disk s) (hs : lhdIrq s = .ok s') : ∃ t r i record,
    s.user = some t ∧ s.place t = .await r i ∧ Answered r i s t record ∧ Delivery s record.result := by
  obtain hquiet | ⟨t, r, i, huser, hx, ⟨hworking, -⟩ | ⟨record, hanswered, hdelivery⟩⟩ := h.device
  · rw [hquiet.lhdIrq] at hs
    cases hs
  · rw [hworking.lhdIrq] at hs
    cases hs
  · exact ⟨t, r, i, record, huser, hx, hanswered, hdelivery⟩

theorem lhdIrq_keeps (h : Inv blocks disk s) (hs : lhdIrq s = .ok s') : Inv blocks disk s' := by
  obtain ⟨t, r, i, record, huser, hx, ⟨hasked, hanswers⟩, hdelivery⟩ := h.interrupts hs
  obtain ⟨hdelivery', heq⟩ := hdelivery.next hs
  refine h.serves huser (by rw [heq]) (by rw [heq]) (by rw [heq]) (by rw [heq]) (fun u _ => by rw [heq]; rfl) ?_ (by rw [heq]) ?_
  · rw [hx]
    refine .inr ⟨record, ⟨⟨hasked.rw, hasked.sector, hasked.written, hasked.failed, ?_⟩, ?_⟩, hdelivery'⟩
    · rw [heq]
      exact hasked.read
    · rw [heq]
      exact hanswers
  · rw [heq]
    exact h.served

omit [DecidableEq T] in
theorem AskedBy.eq (h : AskedBy r i s record) : record = ⟨r.rw, r.sectorAt i, record.block, record.result⟩ := by
  obtain ⟨rw', sector, block, result⟩ := record
  rw [← h.rw, ← h.sector]

omit [DecidableEq T] in
theorem Quiet.of (h : Quiet s) (hstat : s'.stat = s.stat) (hdone : s'.done = s.done) (hhandler : s'.handler = s.handler) : Quiet s' :=
  ⟨hstat.trans h.stat, hdone.trans h.done, hhandler.trans h.handler⟩

theorem advance_keeps (h : Inv blocks disk s) (hs : advance t move s = .ok s') : Inv blocks disk s' := by
  have hf := h.facts t
  have hr := h.range t
  have hheld := h.held t
  unfold advance at hs
  -- A thread past `lh_clear` has the device.
  have hmine : (s.place t).busy = true → s.user = some t ∧ s.clear = 0 := by
    intro hbusy
    refine ⟨hheld.mp hbusy, ?_⟩
    rw [h.clear, if_neg]
    rw [hheld.mp hbusy]
    exact Option.some_ne_none t
  cases hx : s.place t with
  | idle result =>
    rw [hx] at hs
    cases hs
  | clear r i =>
    rw [hx] at hs hf hr
    dsimp only at hs
    by_cases hclear : s.clear = 0
    · rw [if_pos hclear] at hs
      cases hs
    · rw [if_neg hclear] at hs
      have hnone : s.user = none := by
        by_contra hsome
        exact hclear (h.clear.trans (if_neg hsome))
      have hone : s.clear - 1 = 0 := by rw [h.clear, if_pos hnone]
      have hquiet := h.unused hnone
      cases hs
      by_cases hwrite : r.rw = .write
      · rw [if_pos hwrite]
        exact h.moves (.inl hnone) rfl rfl hone hr (fun hb => by cases hb) ⟨hwrite, hquiet.of rfl rfl rfl, hf⟩ rfl (fun _ _ => rfl) rfl rfl
      · rw [if_neg hwrite]
        exact h.moves (.inl hnone) rfl rfl hone hr (fun hb => by cases hb) ⟨fun hw => absurd hw hwrite, hquiet.of rfl rfl rfl, hf⟩ rfl
          (fun _ _ => rfl) rfl rfl
  | fill r i =>
    rw [hx] at hs hf hr hmine
    obtain ⟨huser, hzero⟩ := hmine rfl
    obtain ⟨-, hquiet, hanswers⟩ := hf
    cases move with
    | whole =>
      cases hs
      exact h.moves (.inr huser) rfl huser hzero hr (fun hb => by cases hb) ⟨fun _ => rfl, hquiet.of rfl rfl rfl, hanswers⟩ rfl
        (fun _ _ => rfl) rfl rfl
    | cut left =>
      cases hs
      exact h.moves (.inr huser) rfl huser hzero hr (fun hb => by cases hb) ⟨hquiet.of rfl rfl rfl, hanswers⟩ rfl (fun _ _ => rfl) rfl rfl
  | select r i =>
    rw [hx] at hs hf hr hmine
    obtain ⟨huser, hzero⟩ := hmine rfl
    obtain ⟨hbuf, hquiet, hanswers⟩ := hf
    cases hs
    exact h.moves (.inr huser) rfl huser hzero hr (fun hb => by cases hb) ⟨rfl, hbuf, hquiet.of rfl rfl rfl, hanswers⟩ rfl
      (fun _ _ => rfl) rfl rfl
  | start r i =>
    rw [hx] at hs hf hr hmine
    obtain ⟨huser, hzero⟩ := hmine rfl
    obtain ⟨hsect, hbuf, hquiet, hanswers⟩ := hf
    cases hs
    exact h.moves (.inr huser) rfl huser hzero hr (fun hb => by cases hb)
      (.inl ⟨⟨rfl, hsect, hbuf, hquiet.done, hquiet.handler⟩, hanswers⟩) rfl (fun _ _ => rfl) rfl rfl
  | await r i =>
    rw [hx] at hs hf hr hmine
    obtain ⟨huser, hzero⟩ := hmine rfl
    dsimp only at hs
    by_cases hdone : s.done = 0
    · rw [if_pos hdone] at hs
      cases hs
    · rw [if_neg hdone] at hs
      obtain ⟨hworking, -⟩ | ⟨record, ⟨hasked, hanswers⟩, hdelivery⟩ := hf
      · exact absurd hworking.done hdone
      · cases hdelivery with
        | asserted _ _ hd => exact absurd hd hdone
        | recording _ _ _ hd => exact absurd hd hdone
        | signalling _ _ hd => exact absurd hd hdone
        | signalled hstat hresult hone hhandler =>
          cases hs
          refine h.moves (.inr huser) rfl huser hzero hr (fun hb => by cases hb)
            ⟨⟨hstat, ?_, hhandler⟩, record, ⟨?_, hanswers⟩, hresult⟩ rfl (fun _ _ => rfl) rfl rfl
          · show s.done - 1 = 0
            rw [hone]
          · exact ⟨hasked.rw, hasked.sector, hasked.written, hasked.failed, hasked.read⟩
  | fetch r i =>
    rw [hx] at hs hf hr hmine
    obtain ⟨huser, hzero⟩ := hmine rfl
    obtain ⟨hquiet, record, ⟨hasked, hanswers⟩, hresult⟩ := hf
    have heq := hasked.eq
    dsimp only at hs
    cases hrw : r.rw with
    | read =>
      rw [hrw] at hs
      cases hres : s.result with
      | none =>
        rw [hres] at hs hresult
        cases hs
        refine h.moves (.inr huser) rfl huser hzero hr (fun hb => by cases hb)
          ⟨hquiet.of rfl rfl rfl, hrw, record, ⟨?_, hanswers⟩, hresult.symm⟩ rfl (fun _ _ => rfl) rfl rfl
        exact ⟨hasked.rw, hasked.sector, hasked.written, hasked.failed, hasked.read⟩
      | some e =>
        rw [hres] at hs hresult
        cases hs
        refine h.moves (.inr huser) rfl huser hzero hr (fun hb => by cases hb) ⟨hquiet.of rfl rfl rfl, ?_⟩ rfl
          (fun u hu => update_of_ne hu _ _) rfl rfl
        show answersTo s t = update s.seen t _ t
        rw [update_self, hanswers, heq, hrw, hasked.failed hrw (by rw [← hresult]; exact Option.some_ne_none e), ← hresult]
    | write =>
      rw [hrw] at hs
      cases hs
      refine h.moves (.inr huser) rfl huser hzero hr (fun hb => by cases hb) ⟨hquiet.of rfl rfl rfl, ?_⟩ rfl
        (fun u hu => update_of_ne hu _ _) rfl rfl
      show answersTo s t = update s.seen t _ t
      rw [update_self, hanswers, heq, hrw, hasked.written hrw, ← hresult]
  | drain r i =>
    rw [hx] at hs hf hr hmine
    obtain ⟨huser, hzero⟩ := hmine rfl
    obtain ⟨hquiet, hrw, record, ⟨hasked, hanswers⟩, hresult⟩ := hf
    have heq := hasked.eq
    cases hs
    refine h.moves (.inr huser) rfl huser hzero hr (fun hb => by cases hb) ⟨hquiet.of rfl rfl rfl, ?_⟩ rfl
      (fun u hu => update_of_ne hu _ _) rfl rfl
    show answersTo s t = update s.seen t _ t
    rw [update_self, hanswers, heq, hrw, hasked.read hrw hresult, hresult]
  | leave r i result =>
    rw [hx] at hs hf hr hmine
    obtain ⟨huser, hzero⟩ := hmine rfl
    obtain ⟨hquiet, hanswers⟩ := hf
    have hone : s.clear + 1 = 1 := by rw [hzero]
    cases hs
    cases result with
    | some e => exact h.moves (.inr huser) rfl rfl hone trivial (fun _ => hquiet.of rfl rfl rfl) hanswers rfl (fun _ _ => rfl) rfl rfl
    | none =>
      dsimp only
      by_cases hmore : i+1 < r.len
      · rw [if_pos hmore]
        exact h.moves (.inr huser) rfl rfl hone hmore (fun _ => hquiet.of rfl rfl rfl) hanswers rfl (fun _ _ => rfl) rfl rfl
      · rw [if_neg hmore]
        exact h.moves (.inr huser) rfl rfl hone trivial (fun _ => hquiet.of rfl rfl rfl) hanswers rfl (fun _ _ => rfl) rfl rfl

/-- A call returns at once, or begins with its first sector. -/
theorem lhdIo_begins {rw : Rw} {offset resid : ℕ} {data : ℕ → Block} (hs : lhdIo t rw offset resid data s = .ok s') :
    (∃ result, s.place t = .idle result) ∧
    ∃ x, s' = s.goto t x ∧ ((∃ e, x = .idle (some e)) ∨ ((asked rw offset resid data).len = 0 ∧ x = .idle none) ∨
      (0 < (asked rw offset resid data).len ∧ x = .clear (asked rw offset resid data) 0)) := by
  unfold lhdIo at hs
  cases hx : s.place t with
  | idle result =>
    rw [hx] at hs
    dsimp only at hs
    refine ⟨⟨result, rfl⟩, ?_⟩
    split at hs
    · cases hs
      exact ⟨_, rfl, .inl ⟨_, rfl⟩⟩
    · split at hs
      · cases hs
        exact ⟨_, rfl, .inl ⟨_, rfl⟩⟩
      · split at hs
        · next hlen =>
          cases hs
          exact ⟨_, rfl, .inr (.inl ⟨hlen, rfl⟩)⟩
        · next hlen =>
          cases hs
          exact ⟨_, rfl, .inr (.inr ⟨Nat.pos_of_ne_zero hlen, rfl⟩)⟩
  | _ =>
    rw [hx] at hs
    cases hs

theorem lhdIo_keeps {rw : Rw} {offset resid : ℕ} {data : ℕ → Block} (h : Inv blocks disk s)
    (hs : lhdIo t rw offset resid data s = .ok s') : Inv blocks disk s' := by
  obtain ⟨⟨result, hx⟩, x, rfl, hbegun⟩ := lhdIo_begins hs
  have hidle : (s.place t).busy = false := by
    rw [hx]
    rfl
  obtain ⟨e, rfl⟩ | ⟨-, rfl⟩ | ⟨hlen, rfl⟩ := hbegun
  · exact h.calls hidle rfl trivial
  · exact h.calls hidle rfl trivial
  · exact h.calls hidle rfl hlen

theorem step_keeps (h : Inv blocks disk s) (hs : step a s = .ok s') : Inv blocks disk s' := by
  cases a with
  | call t rw offset resid data => exact lhdIo_keeps h hs
  | advance t move => exact advance_keeps h hs
  | complete answer => exact complete_keeps h hs
  | interrupt => exact lhdIrq_keeps h hs

theorem configured_inv (disk : ℕ → Block) (blocks : ℕ) (buf : Block) : Inv blocks disk (configured disk blocks buf : State T) :=
  ⟨fun t => by simp [configured, Place.busy], rfl, fun _ => ⟨rfl, rfl, rfl⟩, fun _ => trivial, fun _ => rfl, rfl, .nil⟩

theorem run_keeps (h : run as (configured disk blocks buf) = .ok s) : Inv blocks disk s :=
  run_invariant (fun _ _ _ => step_keeps) (configured_inv disk blocks buf) h

/-- A thread has been told of its requests in order, of all but perhaps the last. -/
theorem facts_told (h : Facts s t x) : s.seen t <+: answersTo s t := by
  have hsame : answersTo s t = s.seen t → s.seen t <+: answersTo s t := fun heq => by rw [heq]
  have hmore : ∀ record, answersTo s t = s.seen t ++ [record] → s.seen t <+: answersTo s t := fun record heq => ⟨[record], heq.symm⟩
  cases x with
  | idle result => exact hsame h
  | clear r i => exact hsame h
  | fill r i => exact hsame h.2.2
  | select r i => exact hsame h.2.2
  | start r i => exact hsame h.2.2.2
  | await r i =>
    obtain ⟨-, heq⟩ | ⟨record, ⟨-, heq⟩, -⟩ := h
    · exact hsame heq
    · exact hmore record heq
  | fetch r i =>
    obtain ⟨-, record, ⟨-, heq⟩, -⟩ := h
    exact hmore record heq
  | drain r i =>
    obtain ⟨-, -, record, ⟨-, heq⟩, -⟩ := h
    exact hmore record heq
  | leave r i result => exact hsame h.2

/-- However the threads, the device and the handler take turns, the requests are served one after the other, and each
thread is told of its own requests, in order, what came of them; a thread that is in no call has been told of all. -/
theorem run_serves (h : run as (configured disk blocks buf : State T) = .ok s) :
    Served blocks disk s.log s.sectors ∧ (∀ t, s.seen t <+: answersTo s t) ∧
    (∀ t result, s.place t = .idle result → answersTo s t = s.seen t) ∧
    ∀ t u, (s.place t).busy = true → (s.place u).busy = true → t = u := by
  have hinv := run_keeps h
  refine ⟨hinv.served, fun t => facts_told (hinv.facts t), fun t result hx => ?_, fun t u ht hu => ?_⟩
  · have hf := hinv.facts t
    rw [hx] at hf
    exact hf
  · have huser := (hinv.held t).mp ht
    rw [(hinv.held u).mp hu] at huser
    exact (Option.some.inj huser).symm

/-- One thread writes a sector that another one reads: it has called first, but comes second. -/
def sharing : List (Action Bool) :=
  [.call false .read 0 512 (fun _ => zeros), .call true .write 0 512 (fun _ _ => 1)] ++
  List.replicate 4 (.advance true .whole) ++ [.complete .ok] ++ List.replicate 5 .interrupt ++ List.replicate 3 (.advance true .whole) ++
  List.replicate 3 (.advance false .whole) ++ [.complete .ok]

theorem sharing_serves : ∃ s, run sharing (configured (fun _ => zeros) 4 zeros) = .ok s ∧
    Served 4 (fun _ => zeros) s.log s.sectors ∧ (∀ t, s.seen t <+: answersTo s t) ∧
    (∀ t result, s.place t = .idle result → answersTo s t = s.seen t) ∧
    ∀ t u, (s.place t).busy = true → (s.place u).busy = true → t = u :=
  ⟨_, rfl, run_serves (rfl : run sharing (configured (fun _ => zeros) 4 zeros) = .ok _)⟩

/-! What a call that returns has done. -/

/-- After what it was told `before`, a thread has been told that the first `n` requests of the call are carried out. -/
def Carried (before : List Record) (r : Request) (n : ℕ) (records : List Record) : Prop :=
  ∃ blocks : ℕ → Block, records = before ++ (List.range n).map (fun k => ⟨r.rw, r.sectorAt k, some (blocks k), none⟩) ∧
    (r.rw = .write → ∀ k < n, blocks k = r.data k)

/-- What a thread has been told since it called. -/
def Since (before : List Record) (r : Request) (records : List Record) : Place → Prop
  | .idle none => Carried before r r.len records
  | .idle (some _) => True
  | .clear r' i | .fill r' i | .select r' i | .start r' i | .await r' i | .fetch r' i | .drain r' i =>
    r' = r ∧ Carried before r i records
  | .leave r' i none => r' = r ∧ Carried before r (i+1) records
  | .leave _ _ (some _) => True

/-- A call of the thread. -/
def Action.CalledBy (t : T) : Action T → Prop
  | .call u _ _ _ _ => u = t
  | _ => False

variable {before records : List Record}

theorem Carried.more {block : Block} (h : Carried before r i records) (hwrite : r.rw = .write → block = r.data i) :
    Carried before r (i+1) (records ++ [⟨r.rw, r.sectorAt i, some block, none⟩]) := by
  obtain ⟨blocks, rfl, hblocks⟩ := h
  refine ⟨update blocks i block, ?_, fun hrw k hk => ?_⟩
  · have hsame : (List.range i).map (fun k => (⟨r.rw, r.sectorAt k, some (update blocks i block k), none⟩ : Record)) =
        (List.range i).map fun k => ⟨r.rw, r.sectorAt k, some (blocks k), none⟩ :=
      List.map_congr_left fun k hk => by rw [update_of_ne (Nat.ne_of_lt (List.mem_range.mp hk))]
    rw [List.range_succ, List.map_append, hsame, List.append_assoc]
    simp
  · obtain hlt | rfl := Nat.lt_succ_iff_lt_or_eq.mp hk
    · rw [update_of_ne (Nat.ne_of_lt hlt)]
      exact hblocks hrw k hlt
    · rw [update_self]
      exact hwrite hrw

/-- Another thread goes on. -/
theorem Since.goes_on (h : Since before r (s.seen t) (s.place t)) (hu : t ≠ u) (hplace : s'.place = update s.place u x)
    (hseen : ∀ v, v ≠ u → s'.seen v = s.seen v) : Since before r (s'.seen t) (s'.place t) := by
  rw [hplace, update_of_ne hu, hseen t hu]
  exact h

/-- The thread itself goes on. -/
theorem Since.of (hplace : s'.place = update s.place t x) (h : Since before r (s'.seen t) x) : Since before r (s'.seen t) (s'.place t) := by
  rw [hplace, update_self]
  exact h

theorem advance_others (hs : advance t move s = .ok s') :
    (∃ x, s'.place = update s.place t x) ∧ ∀ v, v ≠ t → s'.seen v = s.seen v := by
  unfold advance at hs
  cases hx : s.place t with
  | idle result =>
    rw [hx] at hs
    cases hs
  | clear r i =>
    rw [hx] at hs
    dsimp only at hs
    split at hs
    · cases hs
    · cases hs
      exact ⟨⟨_, rfl⟩, fun _ _ => rfl⟩
  | fill r i =>
    rw [hx] at hs
    cases move <;> cases hs <;> exact ⟨⟨_, rfl⟩, fun _ _ => rfl⟩
  | await r i =>
    rw [hx] at hs
    dsimp only at hs
    split at hs
    · cases hs
    · cases hs
      exact ⟨⟨_, rfl⟩, fun _ _ => rfl⟩
  | fetch r i =>
    rw [hx] at hs
    dsimp only at hs
    split at hs <;> cases hs
    · exact ⟨⟨_, rfl⟩, fun _ _ => rfl⟩
    · exact ⟨⟨_, rfl⟩, fun v hv => update_of_ne hv _ _⟩
    · exact ⟨⟨_, rfl⟩, fun v hv => update_of_ne hv _ _⟩
  | drain r i =>
    rw [hx] at hs
    cases hs
    exact ⟨⟨_, rfl⟩, fun v hv => update_of_ne hv _ _⟩
  | _ =>
    rw [hx] at hs
    cases hs
    exact ⟨⟨_, rfl⟩, fun _ _ => rfl⟩

theorem advance_since (hinv : Inv blocks disk s) (h : Since before r (s.seen t) (s.place t)) (hs : advance t move s = .ok s') :
    Since before r (s'.seen t) (s'.place t) := by
  have hr := hinv.range t
  have hf := hinv.facts t
  unfold advance at hs
  cases hx : s.place t with
  | idle result =>
    rw [hx] at hs
    cases hs
  | clear r' i =>
    rw [hx] at hs h
    dsimp only at hs
    split at hs
    · cases hs
    · cases hs
      refine Since.of rfl ?_
      split <;> exact h
  | fill r' i =>
    rw [hx] at hs h
    cases move with
    | whole =>
      cases hs
      exact Since.of rfl h
    | cut left =>
      cases hs
      exact Since.of rfl trivial
  | select r' i =>
    rw [hx] at hs h
    cases hs
    exact Since.of rfl h
  | start r' i =>
    rw [hx] at hs h
    cases hs
    exact Since.of rfl h
  | await r' i =>
    rw [hx] at hs h
    dsimp only at hs
    split at hs
    · cases hs
    · cases hs
      exact Since.of rfl h
  | fetch r' i =>
    rw [hx] at hs h
    obtain ⟨rfl, hcarried⟩ := h
    dsimp only at hs
    cases hrw : r'.rw with
    | read =>
      rw [hrw] at hs
      cases hres : s.result with
      | none =>
        rw [hres] at hs
        cases hs
        exact Since.of rfl ⟨rfl, hcarried⟩
      | some e =>
        rw [hres] at hs
        cases hs
        exact Since.of rfl trivial
    | write =>
      rw [hrw] at hs
      cases hres : s.result with
      | none =>
        rw [hres] at hs
        cases hs
        refine Since.of rfl ⟨rfl, ?_⟩
        show Carried before r' (i+1) (update s.seen t _ t)
        rw [update_self, ← hrw]
        exact hcarried.more fun _ => rfl
      | some e =>
        rw [hres] at hs
        cases hs
        exact Since.of rfl trivial
  | drain r' i =>
    rw [hx] at hs h hf
    obtain ⟨rfl, hcarried⟩ := h
    have hread : r'.rw = .read := hf.2.1
    cases move with
    | whole =>
      cases hs
      refine Since.of rfl ⟨rfl, ?_⟩
      show Carried before r' (i+1) (update s.seen t _ t)
      rw [update_self, ← hread]
      refine hcarried.more fun hwrite => ?_
      rw [hread] at hwrite
      cases hwrite
    | cut left =>
      cases hs
      exact Since.of rfl trivial
  | leave r' i result =>
    rw [hx] at hs h hr
    cases hs
    refine Since.of rfl ?_
    cases result with
    | some e => trivial
    | none =>
      obtain ⟨rfl, hcarried⟩ := h
      dsimp only
      split
      · exact ⟨rfl, hcarried⟩
      · next hlast =>
        have hlt : i < r'.len := hr
        have hall : i+1 = r'.len := by omega
        rw [hall] at hcarried
        exact hcarried

theorem step_since (hinv : Inv blocks disk s) (hcalled : ¬a.CalledBy t) (h : Since before r (s.seen t) (s.place t))
    (hs : step a s = .ok s') : Since before r (s'.seen t) (s'.place t) := by
  cases a with
  | call u rw offset resid data =>
    obtain ⟨-, x, rfl, -⟩ := lhdIo_begins hs
    exact h.goes_on (fun hu => hcalled hu.symm) rfl fun _ _ => rfl
  | advance u move =>
    by_cases hu : t = u
    · subst hu
      exact advance_since hinv h hs
    · obtain ⟨⟨x, hplace⟩, hseen⟩ := advance_others hs
      exact h.goes_on hu hplace hseen
  | complete answer =>
    obtain ⟨u, r, i, -, -, hworking, -⟩ := hinv.completes hs
    obtain ⟨record, -, -, -, heq⟩ := complete_answers hworking hs
    rw [heq]
    exact h
  | interrupt =>
    obtain ⟨u, r, i, record, -, -, -, hdelivery⟩ := hinv.interrupts hs
    obtain ⟨-, heq⟩ := hdelivery.next hs
    rw [heq]
    exact h

theorem steps_since (hinv : Inv blocks disk s) (hcalled : ∀ a ∈ as, ¬a.CalledBy t) (h : Since before r (s.seen t) (s.place t))
    (hrun : run as s = .ok s') : Inv blocks disk s' ∧ Since before r (s'.seen t) (s'.place t) := by
  induction as generalizing s with
  | nil =>
    cases hrun
    exact ⟨hinv, h⟩
  | cons a as ih =>
    obtain ⟨s₁, hs, hrest⟩ := run_cons_ok.mp hrun
    exact ih (step_keeps hinv hs) (fun b hb => hcalled b (List.mem_cons_of_mem a hb))
      (step_since hinv (hcalled a List.mem_cons_self) h hs) hrest

/-- A call that returns without an error has had the device carry out its sectors, each once and in order, whatever the
others did in the meantime. -/
theorem run_returns {as' : List (Action T)} {s₀ s₁ : State T} {rw : Rw} {offset resid : ℕ} {data : ℕ → Block}
    (h : run as (configured disk blocks buf) = .ok s₀) (hcall : step (.call t rw offset resid data) s₀ = .ok s₁)
    (hcalled : ∀ a ∈ as', ¬a.CalledBy t) (hrun : run as' s₁ = .ok s) (hreturned : s.place t = .idle none) :
    Carried (answersTo s₀ t) (asked rw offset resid data) (asked rw offset resid data).len (answersTo s t) := by
  have hinv := run_keeps h
  obtain ⟨⟨result, hx⟩, x, rfl, hbegun⟩ := lhdIo_begins hcall
  have hf := hinv.facts t
  rw [hx] at hf
  have hnone : Carried (s₀.seen t) (asked rw offset resid data) 0 (s₀.seen t) :=
    ⟨fun _ => 0, by simp, fun _ k hk => absurd hk (Nat.not_lt_zero k)⟩
  have hsince : Since (s₀.seen t) (asked rw offset resid data) ((s₀.goto t x).seen t) ((s₀.goto t x).place t) := by
    refine Since.of rfl ?_
    obtain ⟨e, rfl⟩ | ⟨hlen, rfl⟩ | ⟨-, rfl⟩ := hbegun
    · trivial
    · show Carried _ _ _ _
      rw [hlen]
      exact hnone
    · exact ⟨rfl, hnone⟩
  obtain ⟨hinv', hdone⟩ := steps_since (step_keeps hinv hcall) hcalled hsince hrun
  have hf' := hinv'.facts t
  rw [hreturned] at hdone hf'
  rw [show answersTo s₀ t = s₀.seen t from hf, show answersTo s t = s.seen t from hf']
  exact hdone

/-- A call that writes one sector. -/
def writing : List (Action Bool) :=
  List.replicate 4 (.advance true .whole) ++ [.complete .ok] ++ List.replicate 5 .interrupt ++ List.replicate 3 (.advance true .whole)

theorem writing_returns : ∃ s₁ s : State Bool,
    step (.call true .write 0 512 (fun _ _ => 1)) (configured (fun _ => zeros) 4 zeros) = .ok s₁ ∧ run writing s₁ = .ok s ∧
    Carried [] (asked .write 0 512 (fun _ _ => 1)) 1 (answersTo s true) :=
  ⟨_, _, rfl, rfl, run_returns (rfl : run [] (configured (fun _ => zeros) 4 zeros : State Bool) = .ok _) rfl
    (show ∀ a ∈ writing, ¬a.CalledBy true by simp [writing, Action.CalledBy]) rfl rfl⟩

/-! Coming to an end. -/

/-- How many steps a call may still take, with those of the device and the handler that it brings about. -/
def Place.rank : Place → ℕ
  | .idle _ => 0
  | .clear r i => (r.len-i) * 20
  | .fill r i => (r.len-i-1) * 20 + 19
  | .select r i => (r.len-i-1) * 20 + 18
  | .start r i => (r.len-i-1) * 20 + 17
  | .await r i => (r.len-i-1) * 20 + 9
  | .fetch r i => (r.len-i-1) * 20 + 8
  | .drain r i => (r.len-i-1) * 20 + 7
  | .leave r i _ => (r.len-i-1) * 20 + 6

/-- How many steps are to come of the device and the handler. -/
def owed (s : State T) : ℕ :=
  match s.handler with
  | .off => if finished s.stat then 5 else if s.stat &&& LHD_STATEMASK = LHD_WORKING then 6 else 0
  | .entered => 4
  | .answered _ => 3
  | .recording _ => 2
  | .signalling => 1

/-- Not a new call. -/
def Action.Goes : Action T → Prop
  | .call _ _ _ _ _ => False
  | _ => True

omit [DecidableEq T] in
theorem Quiet.owed (h : Quiet s) : owed s = 0 := by
  unfold LhdDriver.owed
  rw [h.handler, h.stat]
  rfl

omit [DecidableEq T] in
theorem Working.owed (h : Working r i s) : owed s = 6 := by
  unfold LhdDriver.owed finished
  rw [h.handler]
  dsimp only
  rw [h.stat, statval_working]
  rfl

omit [DecidableEq T] in
theorem owed_congr (hstat : s'.stat = s.stat) (hhandler : s'.handler = s.handler) : owed s' = owed s := by
  unfold owed
  rw [hstat, hhandler]

/-- A step of a thread that leaves the device alone. -/
theorem nearer_of {n : ℕ} (hplace : s'.place = update s.place t x) (hstat : s'.stat = s.stat) (hhandler : s'.handler = s.handler)
    (hless : x.rank < n) : ∃ x, s'.place = update s.place t x ∧ x.rank + owed s' < n + owed s := by
  refine ⟨x, hplace, ?_⟩
  rw [owed_congr hstat hhandler]
  exact Nat.add_lt_add_right hless _

theorem advance_nearer (h : Inv blocks disk s) (hs : advance t move s = .ok s') :
    ∃ x, s'.place = update s.place t x ∧ x.rank + owed s' < (s.place t).rank + owed s := by
  have hf := h.facts t
  have hr := h.range t
  unfold advance at hs
  cases hx : s.place t with
  | idle result =>
    rw [hx] at hs
    cases hs
  | clear r i =>
    rw [hx] at hs hr
    have hlt : i < r.len := hr
    dsimp only at hs
    split at hs
    · cases hs
    · cases hs
      refine nearer_of rfl rfl rfl ?_
      split <;> simp only [Place.rank] <;> omega
  | fill r i =>
    rw [hx] at hs
    cases move <;> cases hs <;> refine nearer_of rfl rfl rfl ?_ <;> simp only [Place.rank] <;> omega
  | select r i =>
    rw [hx] at hs
    cases hs
    refine nearer_of rfl rfl rfl ?_
    simp only [Place.rank]
    omega
  | start r i =>
    rw [hx] at hs hf
    obtain ⟨hsect, hbuf, hquiet, -⟩ := hf
    cases hs
    have hworking : Working r i ({ s with stat := r.statval }.goto t (.await r i)) :=
      ⟨rfl, hsect, hbuf, hquiet.done, hquiet.handler⟩
    refine ⟨_, rfl, ?_⟩
    rw [hworking.owed, hquiet.owed]
    simp only [Place.rank]
    omega
  | await r i =>
    rw [hx] at hs
    dsimp only at hs
    split at hs
    · cases hs
    · cases hs
      refine nearer_of rfl rfl rfl ?_
      simp only [Place.rank]
      omega
  | fetch r i =>
    rw [hx] at hs
    dsimp only at hs
    split at hs <;> cases hs <;> refine nearer_of rfl rfl rfl ?_ <;> simp only [Place.rank] <;> omega
  | drain r i =>
    rw [hx] at hs
    cases hs
    refine nearer_of rfl rfl rfl ?_
    simp only [Place.rank]
    omega
  | leave r i result =>
    rw [hx] at hs
    cases hs
    refine nearer_of rfl rfl rfl ?_
    cases result with
    | some e =>
      simp only [Place.rank]
      omega
    | none =>
      dsimp only
      split <;> simp only [Place.rank] <;> omega

omit [DecidableEq T] in
theorem Working.nearer (h : Working r i s) (hs : complete answer s = .ok s') :
    s'.place = s.place ∧ LhdDriver.owed s' < LhdDriver.owed s := by
  obtain ⟨record, -, -, hdelivery, heq⟩ := complete_answers h hs
  have hhandler : s'.handler = .off := by
    rw [heq]
    exact h.handler
  have hfinished : finished s'.stat = true := by
    cases hdelivery with
    | asserted hfinished => exact hfinished
    | recording _ _ _ _ hrecording =>
      rw [hhandler] at hrecording
      cases hrecording
    | signalling _ _ _ hsignalling =>
      rw [hhandler] at hsignalling
      cases hsignalling
    | signalled _ _ hdone =>
      have hsame : s'.done = s.done := by rw [heq]
      rw [hsame, h.done] at hdone
      cases hdone
  refine ⟨by rw [heq], ?_⟩
  rw [h.owed]
  unfold LhdDriver.owed
  rw [hhandler]
  dsimp only
  rw [if_pos hfinished]
  decide

omit [DecidableEq T] in
theorem Delivery.nearer (h : Delivery s record.result) (hs : lhdIrq s = .ok s') : s'.place = s.place ∧ owed s' < owed s := by
  obtain ⟨-, heq⟩ := h.next hs
  refine ⟨by rw [heq], ?_⟩
  unfold lhdIrq at hs
  cases h with
  | asserted hfinished hcode hdone hhandler =>
    obtain hoff | hentered | hanswered := hhandler
    · rw [hoff] at hs
      simp only [hfinished, if_true] at hs
      cases hs
      simp [owed, hoff, hfinished]
    · rw [hentered] at hs
      simp only [hfinished, if_true] at hs
      cases hs
      simp [owed, hentered]
    · rw [hanswered] at hs
      cases hs
      simp [owed, hanswered]
  | recording val hstat hcode hdone hhandler =>
    rw [hhandler] at hs
    cases hs
    simp [owed, hhandler]
  | signalling hstat hresult hdone hhandler =>
    rw [hhandler] at hs
    cases hs
    simp [owed, hhandler, hstat, finished, LHD_STATEMASK, LHD_OK, LHD_INVSECT, LHD_MEDIA, LHD_WORKING]
  | signalled hstat hresult hdone hhandler =>
    rw [hhandler] at hs
    have hunfinished : finished s.stat = false := by
      rw [hstat]
      rfl
    simp only [hunfinished, Bool.false_eq_true, if_false] at hs
    cases hs

variable [Fintype T]

/-- How many steps are to come until all calls have returned. -/
def ahead (s : State T) : ℕ := Channels.tally Place.rank s.place + owed s

theorem step_nearer (h : Inv blocks disk s) (hgoes : a.Goes) (hs : step a s = .ok s') : ahead s' < ahead s := by
  have hdevice : s'.place = s.place ∧ owed s' < owed s → ahead s' < ahead s := by
    intro hless
    unfold ahead
    rw [hless.1]
    exact Nat.add_lt_add_left hless.2 _
  cases a with
  | call t rw offset resid data => exact hgoes.elim
  | advance t move =>
    obtain ⟨x, hplace, hless⟩ := advance_nearer h hs
    have hsum := Channels.tally_update Place.rank s.place t x
    unfold ahead
    rw [hplace]
    omega
  | complete answer =>
    obtain ⟨t, r, i, -, -, hworking, -⟩ := h.completes hs
    exact hdevice (hworking.nearer hs)
  | interrupt =>
    obtain ⟨t, r, i, record, -, -, -, hdelivery⟩ := h.interrupts hs
    exact hdevice (hdelivery.nearer hs)

theorem steps_bounded (h : Inv blocks disk s) (hgoes : ∀ a ∈ as, a.Goes) (hrun : run as s = .ok s') :
    as.length + ahead s' ≤ ahead s ∧ Inv blocks disk s' := by
  induction as generalizing s with
  | nil =>
    cases hrun
    exact ⟨Nat.le_of_eq (Nat.zero_add _), h⟩
  | cons a as ih =>
    obtain ⟨s₁, hs, hrest⟩ := run_cons_ok.mp hrun
    have hless := step_nearer h (hgoes a List.mem_cons_self) hs
    obtain ⟨hbound, hinv⟩ := ih (step_keeps h hs) (fun b hb => hgoes b (List.mem_cons_of_mem a hb)) hrest
    refine ⟨?_, hinv⟩
    rw [List.length_cons]
    omega

omit [Fintype T] in
/-- While a call has not returned something goes on. -/
theorem goes_on (h : Inv blocks disk s) (hbusy : ∀ result, s.place t ≠ .idle result) : ∃ a s', a.Goes ∧ step a s = .ok s' := by
  cases huser : s.user with
  | none =>
    have hidle : (s.place t).busy = false := by
      refine Bool.eq_false_of_not_eq_true fun hheld => ?_
      rw [(h.held t).mp hheld] at huser
      cases huser
    cases hx : s.place t with
    | idle result => exact absurd hx (hbusy result)
    | clear r i =>
      have hone : s.clear = 1 := by rw [h.clear, if_pos huser]
      refine ⟨.advance t .whole, ?_⟩
      rw [step, advance, hx]
      exact ⟨_, trivial, if_neg (by rw [hone]; decide)⟩
    | _ =>
      rw [hx] at hidle
      cases hidle
  | some u =>
    have hheld := (h.held u).mpr huser
    have hf := h.facts u
    cases hx : s.place u with
    | idle result =>
      rw [hx] at hheld
      cases hheld
    | clear r i =>
      rw [hx] at hheld
      cases hheld
    | await r i =>
      rw [hx] at hf
      obtain ⟨hworking, -⟩ | ⟨record, -, hdelivery⟩ := hf
      · refine ⟨.complete .ok, ?_⟩
        rw [step, complete]
        exact ⟨_, trivial, if_pos (by rw [hworking.stat, statval_working])⟩
      · cases hdelivery with
        | asserted hfinished hcode hdone hhandler =>
          refine ⟨.interrupt, ?_⟩
          rw [step, lhdIrq]
          obtain hoff | hentered | hanswered := hhandler
          · rw [hoff]
            exact ⟨_, trivial, if_pos hfinished⟩
          · rw [hentered]
            exact ⟨_, trivial, rfl⟩
          · rw [hanswered]
            exact ⟨_, trivial, rfl⟩
        | recording val hstat hcode hdone hhandler =>
          refine ⟨.interrupt, ?_⟩
          rw [step, lhdIrq, hhandler]
          exact ⟨_, trivial, rfl⟩
        | signalling hstat hresult hdone hhandler =>
          refine ⟨.interrupt, ?_⟩
          rw [step, lhdIrq, hhandler]
          exact ⟨_, trivial, rfl⟩
        | signalled hstat hresult hdone hhandler =>
          refine ⟨.advance u .whole, ?_⟩
          rw [step, advance, hx]
          exact ⟨_, trivial, if_neg (by rw [hdone]; decide)⟩
    | fetch r i =>
      refine ⟨.advance u .whole, ?_⟩
      rw [step, advance, hx]
      dsimp only
      split <;> exact ⟨_, trivial, rfl⟩
    | _ =>
      refine ⟨.advance u .whole, ?_⟩
      rw [step, advance, hx]
      exact ⟨_, trivial, rfl⟩

/-- From every state that a run reaches, all calls come to their end, in whichever order the threads, the device and the
handler go on: after a number of steps that is bounded, and nothing stands still before. -/
theorem run_finishes {as' : List (Action T)} (h : run as (configured disk blocks buf : State T) = .ok s) (hgoes : ∀ a ∈ as', a.Goes)
    (hrun : run as' s = .ok s') : as'.length ≤ ahead s ∧
      ((∀ t, ∃ result, s'.place t = .idle result) ∨ ∃ a s₁, a.Goes ∧ step a s' = .ok s₁) := by
  obtain ⟨hbound, hinv⟩ := steps_bounded (run_keeps h) hgoes hrun
  refine ⟨by omega, ?_⟩
  by_cases hover : ∀ t, ∃ result, s'.place t = .idle result
  · exact .inl hover
  · push Not at hover
    obtain ⟨t, hbusy⟩ := hover
    exact .inr (goes_on hinv hbusy)

theorem writing_finishes : ∃ s₁ s : State Bool,
    run [.call true .write 0 512 (fun _ _ => 1)] (configured (fun _ => zeros) 4 zeros) = .ok s₁ ∧ run writing s₁ = .ok s ∧
    writing.length ≤ ahead s₁ ∧ ((∀ t, ∃ result, s.place t = .idle result) ∨ ∃ a s₂, a.Goes ∧ step a s = .ok s₂) :=
  ⟨_, _, rfl, rfl, run_finishes (rfl : run [.call true .write 0 512 (fun _ _ => 1)] (configured (fun _ => zeros) 4 zeros) = .ok _)
    (by simp [writing, Action.Goes]) rfl⟩

end OS161.LhdDriver
