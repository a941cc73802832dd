import OS161.DescriptorOrder

/-!
# Where reads and writes start

In the order in which the calls took the lock, each successful transfer starts
at the position that the call before it left, and moves the position on by the
bytes it transferred. A call that fails leaves the position alone.
-/

set_option autoImplicit false

namespace OS161.DescriptorPositions

open Function OS161.Vfs OS161.Serial OS161.SharedDescriptor OS161.DescriptorOrder

/-- What a call that finds the position `p` transfers, and what it leaves. -/
def Advances (p : Int64) (x : Answer × Int64) : Prop :=
  match x.1.result with
  | .ok (.count n) => x.1.range = some (p, n) ∧ x.2 = p + n.toUInt64.toInt64
  | .ok (.position q) => x.1.range = none ∧ x.2 = q
  | .error _ => x.1.range = none ∧ x.2 = p

/-- Each call finds the position that the one before it left. -/
def Chained : Int64 → List (Answer × Int64) → Prop
  | _, [] => True
  | p, x::xs => Advances p x ∧ Chained x.2 xs

variable {ω : Type} (v : Vnode ω) (space : ℕ → ℕ)

/-- A whole call, with the position it leaves. -/
def seqCall (x : ℕ × Call) (d : Desc ω) : (Answer × Int64) × Desc ω :=
  withLeft (sysCall v space x.1 x.2 d)

/-- The state of a descriptor shared by any number of threads, compared with
the calls executed one after another. -/
structure InOrder (d₀ : Desc ω) (s : State ω) : Prop where
  order : s.order = calls s.log ∨ ∃ x, s.order = calls s.log ++ [x]
  results : outcomes s.log = (serial (seqCall v space) (calls s.log) d₀).1
  state : s.lk = none → s.order = calls s.log ∧
    s.desc = (serial (seqCall v space) (calls s.log) d₀).2
  refused : ∀ x ∈ s.refused, ∀ d : Desc ω, sysCall v space x.1 x.2.1 d = (x.2.2, d)
  chained : Chained d₀.seekLocation (outcomes s.log)
  advances : ∀ t, s.lk = some t → ∃ a s', a.thread = t ∧ step v space a s = .ok s'

variable {v space} {d₀ : Desc ω} {s : State ω}

theorem moveData_advances (t : ℕ) (x : Transfer) (d : Desc ω) :
    Advances d.seekLocation (withLeft (moveData v space t x d)).1 := by
  unfold moveData
  split
  · exact ⟨rfl, rfl⟩
  · exact ⟨rfl, rfl⟩

theorem setPosition_advances (q : Int64) (d : Desc ω) :
    Advances d.seekLocation (withLeft (setPosition q d)).1 := by
  unfold setPosition
  split
  · exact ⟨rfl, rfl⟩
  · exact ⟨rfl, rfl⟩

theorem lseek_advances (pos : Int64) (whence : ℤ) (d : Desc ω) :
    Advances d.seekLocation (withLeft (lseek v pos whence d)).1 := by
  unfold lseek
  split
  · exact ⟨rfl, rfl⟩
  · split
    · exact setPosition_advances pos d
    · split
      · exact setPosition_advances _ d
      · split
        · split
          · exact ⟨rfl, rfl⟩
          · next size w _ => exact setPosition_advances (size + pos) { d with world := w }
        · exact ⟨rfl, rfl⟩

theorem seqCall_advances (x : ℕ × Call) (d : Desc ω) :
    Advances d.seekLocation (seqCall v space x d).1 := by
  obtain ⟨t, c⟩ := x
  unfold seqCall sysCall
  split
  · exact ⟨rfl, rfl⟩
  · cases c with
    | read buf size =>
      simp only [lockedCall, readFromDisk]
      split
      · exact ⟨rfl, rfl⟩
      · exact moveData_advances t _ d
    | write buf size =>
      simp only [lockedCall, writeToDisk]
      split
      · exact ⟨rfl, rfl⟩
      · exact moveData_advances t _ d
    | lseek pos whence => exact lseek_advances pos whence d

theorem serial_chained (cs : List (ℕ × Call)) (d : Desc ω) :
    Chained d.seekLocation (serial (seqCall v space) cs d).1 := by
  induction cs generalizing d with
  | nil => trivial
  | cons c cs ih => exact ⟨seqCall_advances c d, ih (seqCall v space c d).2⟩

/-- Past the check for a buffer, a call is what the holder of the lock does. -/
theorem exec_seqCall {x : ℕ × Call} (hx : x.2.null = false) :
    (body v space).exec x = seqCall v space x := by
  funext d
  simp [Body.exec, body, rest, seqCall, sysCall, hx]

theorem ordered_inOrder (h : Ordered v space d₀ s) (hs : Sifted s) : InOrder v space d₀ s := by
  have hmem : ∀ x ∈ calls s.log, x ∈ s.order := by
    intro x hx
    cases h with
    | free _ ho => exact ho ▸ hx
    | held _ ho =>
      rw [ho]
      exact List.mem_append_left _ hx
  have hexec : ∀ d, serial (body v space).exec (calls s.log) d =
      serial (seqCall v space) (calls s.log) d :=
    serial_congr (fun x hx => exec_seqCall (hs.order x (hmem x hx)))
  have hresults : outcomes s.log = (serial (seqCall v space) (calls s.log) d₀).1 := by
    rw [← hexec]
    cases h with
    | free _ ho hser =>
      rw [← ho, show serial (body v space).exec s.order d₀ = _ from hser]
    | held _ ho hser =>
      obtain ⟨before, c, d₁, hcut, hdone, -⟩ := hser
      rw [ho] at hcut
      rw [(List.append_inj' hcut rfl).1, hdone]
  refine ⟨?_, hresults, ?_, ?_, ?_, ?_⟩
  · cases h with
    | free _ ho => exact .inl ho
    | held _ ho => exact .inr ⟨_, ho⟩
  · intro hlk
    cases h with
    | free _ ho hser =>
      refine ⟨ho, ?_⟩
      rw [← hexec, ← ho, show serial (body v space).exec s.order d₀ = _ from hser]
    | held hh =>
      rw [hh.lk] at hlk
      cases hlk
  · intro x hx d
    obtain ⟨hnull, hres⟩ := hs.refused x hx
    rw [sysCall, if_pos hnull, hres]
  · rw [hresults]
    exact serial_chained (calls s.log) d₀
  · intro t ht
    cases h with
    | free hf =>
      rw [hf.lk] at ht
      cases ht
    | held hh =>
      rw [hh.lk] at ht
      cases ht
      exact held_advances hh

/-- Any number of threads, in any interleaving of their operations on locks: the
calls have the results of executing them in the order in which they took the
lock of the descriptor, and each successful transfer starts where the call
before it left the position. -/
theorem run_inOrder (v : Vnode ω) (space : ℕ → ℕ) (d : Desc ω) (as : List Action) (s : State ω)
    (hr : run v space as (opened d) = .ok s) : InOrder v space d s := by
  have hstep : ∀ a t t', Ordered v space d t ∧ Sifted t → step v space a t = .ok t' →
      Ordered v space d t' ∧ Sifted t' :=
    fun a t t' h hs => ⟨step_ordered h.1 hs, step_sifted h.2 hs⟩
  have hopened : Ordered v space d (opened d) ∧ Sifted (opened d) := by
    refine ⟨.free ⟨rfl, rfl, by simp [opened]⟩ rfl rfl, ⟨by simp [opened], ?_, ?_⟩⟩
    · intro x hx
      cases hx
    · intro x hx
      cases hx
  have h := Runs.run_invariant hstep hopened hr
  exact ordered_inOrder h.1 h.2

/-- A file in memory and the bytes at the callers' addresses. -/
structure Ram where
  contents : List UInt8
  memory : ℕ → List UInt8

def ramFile : Vnode Ram where
  read u w :=
    let start := u.offset.toInt.toNat
    let bytes := (w.contents.drop start).take u.resid.toNat
    (.ok (u.resid - UInt32.ofNat bytes.length), { w with memory := update w.memory u.base bytes })
  write u w :=
    let start := u.offset.toInt.toNat
    let bytes := (w.memory u.base).take u.resid.toNat
    (.ok (u.resid - UInt32.ofNat bytes.length),
      { w with contents := w.contents.take start ++ bytes ++ w.contents.drop (start + bytes.length) })
  isSeekable _ := true
  stat w := (.ok (Int64.ofNat w.contents.length), w)

/-- Two threads read, a third one seeks to the end and is refused a null
buffer; all of them are in each other's way. -/
def contended : List Action :=
  [.invoke 1 (.read 100 3), .invoke 2 (.read 200 2), .acquire 2, .invoke 3 (.write 0 1), .check 2,
    .acquireFile 2, .invoke 3 (.lseek 0 2), .transfer 2, .releaseFile 2, .release 2, .acquire 1,
    .check 1, .acquireFile 1, .transfer 1, .releaseFile 1, .release 1, .acquire 3, .check 3]

def fiveBytes : Desc Ram := ⟨O_RDONLY, 0, ⟨[10, 11, 12, 13, 14], fun _ => []⟩⟩

theorem contended_inOrder : ∃ s, run ramFile id contended (opened fiveBytes) = .ok s ∧
    calls s.log = [(2, .read 200 2), (1, .read 100 3)] ∧
    outcomes s.log = [(⟨.ok (.count 2), some (0, 2)⟩, 2), (⟨.ok (.count 3), some (2, 3)⟩, 5)] ∧
    InOrder ramFile id fiveBytes s := by
  have hr : ∃ s, run ramFile id contended (opened fiveBytes) = .ok s ∧
      calls s.log = [(2, .read 200 2), (1, .read 100 3)] ∧
      outcomes s.log = [(⟨.ok (.count 2), some (0, 2)⟩, 2), (⟨.ok (.count 3), some (2, 3)⟩, 5)] := by
    decide +kernel
  obtain ⟨s, hr, hcalls, hout⟩ := hr
  exact ⟨s, hr, hcalls, hout, run_inOrder ramFile id fiveBytes contended s hr⟩

end OS161.DescriptorPositions
