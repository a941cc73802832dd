import OS161.ArgumentScan
import OS161.Lseek

/-!
# Reading from and writing to the console

A read takes characters until the buffer is full or a line has ended, and then
copies them out; a write copies the buffer in and emits it. Both copies refuse
a block without bytes, wherever it lies.
-/

set_option autoImplicit false

namespace OS161.ConsoleCalls

open Function OS161.Vfs OS161.CopyInOut OS161.CopyChecks OS161.SharedDescriptor OS161.Lseek
open OS161.ArgumentScan (copyin_bytes)

def STDIN_FILENO : ℤ := 0
def STDOUT_FILENO : ℤ := 1
def STDERR_FILENO : ℤ := 2

def newline : UInt8 := 10
def carriageReturn : UInt8 := 13

/-- What is typed, how much of it has been taken, and what has been emitted. -/
structure Console where
  input : ℕ → UInt8
  taken : ℕ
  output : List UInt8

def Console.getch (c : Console) : UInt8 × Console := (c.input c.taken, { c with taken := c.taken + 1 })

def Console.putch (ch : UInt8) (c : Console) : Console := { c with output := c.output ++ [ch] }

/-- The loop of `read_stdin`, with `read` characters in the buffer and room for as many as are left. -/
def readChars : (read left : ℕ) → Buffer → Console → ℕ × Buffer × Console
  | read, 0, bytes, c => (read, bytes, c)
  | read, left+1, bytes, c =>
    let (ch, c') := c.getch
    if ch = newline ∨ ch = carriageReturn then (read+1, putIn read newline bytes, c'.putch newline)
    else readChars (read+1) left (putIn read ch bytes) c'

/-- The loop of `write_std`. -/
def writeChars (bytes : Buffer) : (written left : ℕ) → Console → ℕ × Console
  | written, 0, c => (written, c)
  | written, left+1, c => writeChars bytes (written+1) left (c.putch (bytes written))

variable {ω : Type}

/-- The caller's memory and table, and the console. -/
structure Machine (ω : Type) where
  user : UserMemory
  console : Console
  files : LocalTable ω

-- `mem` tells whether `kmalloc` finds a buffer
def readStdin (mem : Bool) (buf size : ℕ) (s : Machine ω) : Except Errno ℕ × Machine ω :=
  if !mem then (.error .enomem, s)
  else
    let (read, bytes, console) := readChars 0 size (fun _ => 0) s.console
    match copyout bytes buf read s.user with
    | (some e, user) => (.error e, { s with user := user, console := console })
    | (none, user) => (.ok read, { s with user := user, console := console })

def writeStd (mem : Bool) (buf size : ℕ) (s : Machine ω) : Except Errno ℕ × Machine ω :=
  if !mem then (.error .enomem, s)
  else match copyin s.user buf size (fun _ => 0) with
    | (some e, _) => (.error e, s)
    | (none, bytes) =>
      let (written, console) := writeChars bytes 0 size s.console
      (.ok written, { s with console := console })

/-- A read or a write of a file on a disk. -/
abbrev DiskCall (ω : Type) := Desc ω → ℕ → ℕ → Machine ω → Except Errno ℕ × Machine ω

def sysRead (disk : DiskCall ω) (mem : Bool) (filehandle : ℤ) (buf size : ℕ) (s : Machine ω) :
    Except Errno ℕ × Machine ω :=
  if buf = 0 then (.error .efault, s)
  else match localTableGet s.files filehandle with
    | none => (.error .ebadf, s)
    | some file =>
      if file.standard = STDIN_FILENO then readStdin mem buf size s
      else if file.standard = -1 then disk file.desc buf size s
      else (.error .ebadf, s)

def sysWrite (disk : DiskCall ω) (mem : Bool) (filehandle : ℤ) (buf size : ℕ) (s : Machine ω) :
    Except Errno ℕ × Machine ω :=
  if buf = 0 then (.error .efault, s)
  else match localTableGet s.files filehandle with
    | none => (.error .ebadf, s)
    | some file =>
      if file.standard = STDERR_FILENO ∨ file.standard = STDOUT_FILENO then writeStd mem buf size s
      else if file.standard = -1 then disk file.desc buf size s
      else (.error .ebadf, s)

/-- The next character but `j` ends a line. -/
def Ends (c : Console) (j : ℕ) : Prop := c.input (c.taken+j) = newline ∨ c.input (c.taken+j) = carriageReturn

def FirstEnd (c : Console) (f : ℕ) : Prop := Ends c f ∧ ∀ j < f, ¬Ends c j

/-- A read of `n` characters gets `k` of them. -/
def LineLength (c : Console) (n k : ℕ) : Prop :=
  (∃ f, FirstEnd c f ∧ k = min n (f+1)) ∨ ((∀ f, ¬Ends c f) ∧ k = n)

/-- The first `k` characters, where a return at the end becomes a newline. -/
def received (c : Console) (k j : ℕ) : UInt8 :=
  if j+1 = k ∧ c.input (c.taken+j) = carriageReturn then newline else c.input (c.taken+j)

/-- A buffer of the caller, all of it mapped. -/
structure ValidBuffer (m : UserMemory) (buf n : ℕ) : Prop where
  nonnull : buf ≠ 0
  below : buf < USERSPACETOP
  inside : buf+n ≤ USERSPACETOP
  mapped : ∀ j < n, m (buf+j) ≠ none

/-- The handle is that of a descriptor for the console. -/
def IsStandard (files : LocalTable ω) (filehandle standard : ℤ) : Prop :=
  ∃ file, localTableGet files filehandle = some file ∧ file.standard = standard

def ReadRight (disk : DiskCall ω) (filehandle : ℤ) (buf n : ℕ) (s : Machine ω) : Prop :=
  ∃ k s', LineLength s.console n k ∧ sysRead disk true filehandle buf n s = (.ok k, s') ∧
    s'.console.input = s.console.input ∧ s'.console.taken = s.console.taken + k ∧
    (∀ j < k, s'.user (buf+j) = some (received s.console k j)) ∧
    ∀ a, ¬(buf ≤ a ∧ a < buf+k) → s'.user a = s.user a

def WriteRight (disk : DiskCall ω) (filehandle : ℤ) (buf n : ℕ) (s : Machine ω) : Prop :=
  ∃ bytes s', bytes.length = n ∧ (∀ j < n, bytes[j]? = s.user (buf+j)) ∧
    sysWrite disk true filehandle buf n s = (.ok n, s') ∧
    s'.console.output = s.console.output ++ bytes ∧ s'.user = s.user

variable {disk : DiskCall ω} {filehandle : ℤ} {buf n k i left : ℕ} {s : Machine ω} {c : Console} {m : UserMemory}

/-- The characters so far do not end a line, and `k` have been taken because the last one does. -/
structure Stops (c : Console) (n k : ℕ) : Prop where
  le : k ≤ n
  before : ∀ j, j+1 < k → ¬Ends c j
  last : k < n → 0 < k ∧ Ends c (k-1)

theorem Stops.lineLength (h : Stops c n k) : LineLength c n k := by
  classical
  by_cases hex : ∃ f, Ends c f
  · left
    obtain ⟨hend, hmin⟩ := Nat.find_spec hex, fun j (hj : j < Nat.find hex) => Nat.find_min hex hj
    refine ⟨Nat.find hex, ⟨hend, hmin⟩, ?_⟩
    have hle := h.le
    have hfirst : k ≤ Nat.find hex + 1 := by
      by_contra hlt
      exact h.before _ (by omega) hend
    by_cases hk : k < n
    · obtain ⟨hpos, hlast⟩ := h.last hk
      have hfind := Nat.find_min' hex hlast
      omega
    · omega
  · right
    refine ⟨fun f hf => hex ⟨f, hf⟩, ?_⟩
    by_contra hne
    have hle := h.le
    exact hex ⟨k-1, (h.last (by omega)).2⟩

theorem getch_ends (j : ℕ) : Ends c.getch.2 j ↔ Ends c (j+1) := by
  simp only [Ends, Console.getch, Nat.add_right_comm, Nat.add_assoc]

theorem getch_received (j : ℕ) : received c.getch.2 k j = received c (k+1) (j+1) := by
  have hj : j+1+1 = k+1 ↔ j+1 = k := by omega
  simp only [received, Console.getch, hj, Nat.add_right_comm c.taken 1, Nat.add_assoc]

theorem received_end (h0 : Ends c 0) : received c 1 0 = newline := by
  obtain hnl | hcr := h0
  · simp only [received, hnl, ite_self]
  · simp only [received, hcr, Nat.zero_add, and_self, if_true]

theorem received_plain (h0 : ¬Ends c 0) : received c k 0 = c.input c.taken := if_neg fun h => h0 (.inr h.2)

/-- One more character that does not end the line. -/
theorem Stops.succ (h : Stops c.getch.2 n k) (h0 : ¬Ends c 0) : Stops c (n+1) (k+1) := by
  refine ⟨Nat.succ_le_succ h.le, ?_, ?_⟩
  · intro j hj
    cases j with
    | zero => exact h0
    | succ j =>
      rw [← getch_ends]
      exact h.before j (by omega)
  · intro hk
    obtain ⟨hpos, hlast⟩ := h.last (by omega)
    rw [getch_ends, Nat.sub_add_cancel hpos] at hlast
    exact ⟨Nat.succ_pos k, hlast⟩

theorem stops_one (h0 : Ends c 0) : Stops c (n+1) 1 :=
  ⟨by omega, fun j hj => by omega, fun _ => ⟨Nat.one_pos, h0⟩⟩

/-- What the loop leaves in the buffer and of the input, from any point on. -/
theorem readChars_right (i left : ℕ) (bytes : Buffer) (c : Console) : ∃ k bytes' output,
    readChars i left bytes c = (i+k, bytes', { c with taken := c.taken + k, output := output }) ∧
    Stops c left k ∧ (∀ j < k, bytes' (i+j) = received c k j) ∧ (∀ j < i, bytes' j = bytes j) ∧
    (0 < left → 0 < k) := by
  induction left generalizing i bytes c with
  | zero =>
    refine ⟨0, bytes, c.output, rfl, ⟨Nat.le_refl 0, fun j hj => by omega, fun hlt => by omega⟩, ?_, ?_, ?_⟩
    · intro j hj
      omega
    · intro j _
      rfl
    · exact id
  | succ left ih =>
    by_cases h0 : Ends c 0
    · refine ⟨1, putIn i newline bytes, c.output ++ [newline], ?_, stops_one h0, ?_, ?_, fun _ => Nat.one_pos⟩
      · exact if_pos h0
      · intro j hj
        have hj0 : j = 0 := by omega
        rw [hj0, received_end h0]
        exact update_self i newline bytes
      · intro j hj
        exact update_of_ne (by omega) _ _
    · obtain ⟨k, bytes', output, hcall, hstops, hbytes, hbelow, -⟩ :=
        ih (i+1) (putIn i (c.input c.taken) bytes) c.getch.2
      refine ⟨k+1, bytes', output, ?_, hstops.succ h0, ?_, ?_, fun _ => Nat.succ_pos k⟩
      · calc readChars i (left+1) bytes c = readChars (i+1) left (putIn i (c.input c.taken) bytes) c.getch.2 := if_neg h0
          _ = _ := by
            rw [hcall]
            simp only [Console.getch, Nat.add_assoc, Nat.add_comm 1 k]
      · intro j hj
        cases j with
        | zero =>
          rw [Nat.add_zero, hbelow i (Nat.lt_succ_self i), received_plain h0]
          exact update_self i (c.input c.taken) bytes
        | succ j =>
          rw [← getch_received, ← hbytes j (by omega)]
          congr 1
          omega
      · intro j hj
        rw [hbelow j (by omega)]
        exact update_of_ne (by omega) _ _

theorem writeChars_right (bytes : Buffer) (i left : ℕ) (c : Console) : writeChars bytes i left c =
    (i+left, { c with output := c.output ++ (List.range' i left).map bytes }) := by
  induction left generalizing i c with
  | zero => simp [writeChars]
  | succ left ih =>
    rw [writeChars, ih]
    simp [Console.putch, List.range'_succ, Nat.add_assoc, Nat.add_comm 1 left]

/-- A block that has no bytes is refused. -/
theorem copycheck_zero (hnonnull : buf ≠ 0) (hbelow : buf < USERSPACETOP) : copycheck buf 0 = none := by
  have htop : blockTop buf 0 = buf-1 := by
    unfold blockTop
    unfold USERSPACETOP at hbelow
    omega
  unfold copycheck
  rw [htop, if_pos (by omega)]

theorem copyout_zero (src : Buffer) (hnonnull : buf ≠ 0) (hbelow : buf < USERSPACETOP) :
    copyout src buf 0 m = (some .efault, m) := by
  unfold copyout copyBlock
  rw [copycheck_zero hnonnull hbelow]

theorem copyin_zero (dest : Buffer) (hnonnull : buf ≠ 0) (hbelow : buf < USERSPACETOP) :
    copyin m buf 0 dest = (some .efault, dest) := by
  unfold copyin copyBlock
  rw [copycheck_zero hnonnull hbelow]

theorem ValidBuffer.copyout (h : ValidBuffer m buf n) (src : Buffer) (hk : 1 ≤ k) (hkn : k ≤ n) :
    ∃ m', CopyInOut.copyout src buf k m = (none, m') ∧ (∀ j < k, m' (buf+j) = some (src j)) ∧
      ∀ a, ¬(buf ≤ a ∧ a < buf+k) → m' a = m a := by
  have hinside := h.inside
  unfold USERSPACETOP at hinside
  have hchecked := (blocks_checked (p := buf) (by omega) hk (by omega)).copyout src m
  rw [if_pos (by unfold USERSPACETOP; omega)] at hchecked
  obtain ⟨m', hcopy, hbytes, houtside⟩ := memcpy_out (m := m) (d := m) (i := 0) (n := k) src buf
    (fun j _ hj => h.mapped j (by omega))
  rw [hcopy] at hchecked
  refine ⟨m', hchecked, ?_, houtside⟩
  intro j hj
  exact hbytes j (Nat.zero_le j) (by omega)

theorem ValidBuffer.copyin (h : ValidBuffer m buf n) (dest : Buffer) (hn : 1 ≤ n) :
    ∃ bytes, CopyInOut.copyin m buf n dest = (none, bytes) ∧ ∀ j < n, m (buf+j) = some (bytes j) := by
  have hinside := h.inside
  have hp : buf < 2^32 := by
    unfold USERSPACETOP at hinside
    omega
  have hlen : n < 2^32 := by
    unfold USERSPACETOP at hinside
    omega
  have hnone := ((blocks_checked hp hn hlen).copyinFault hinside m dest).mpr h.mapped
  exact ⟨_, Prod.ext hnone rfl, copyin_bytes hnone⟩

theorem sysRead_stdin {mem : Bool} (hnonnull : buf ≠ 0) (h : IsStandard s.files filehandle STDIN_FILENO) :
    sysRead disk mem filehandle buf n s = readStdin mem buf n s := by
  obtain ⟨file, hget, hstd⟩ := h
  simp only [sysRead, if_neg hnonnull, hget, if_pos hstd]

theorem sysWrite_std {mem : Bool} (hnonnull : buf ≠ 0)
    (h : IsStandard s.files filehandle STDOUT_FILENO ∨ IsStandard s.files filehandle STDERR_FILENO) :
    sysWrite disk mem filehandle buf n s = writeStd mem buf n s := by
  have hstd : ∃ file, localTableGet s.files filehandle = some file ∧
      (file.standard = STDERR_FILENO ∨ file.standard = STDOUT_FILENO) := by
    obtain ⟨file, hget, hout⟩ | ⟨file, hget, herr⟩ := h
    · exact ⟨file, hget, .inr hout⟩
    · exact ⟨file, hget, .inl herr⟩
  obtain ⟨file, hget, hstd⟩ := hstd
  simp only [sysWrite, if_neg hnonnull, hget, if_pos hstd]

theorem read_some (hv : ValidBuffer s.user buf n) (h : IsStandard s.files filehandle STDIN_FILENO) (hn : 1 ≤ n) :
    ReadRight disk filehandle buf n s := by
  obtain ⟨k, bytes, output, hloop, hstops, hbytes, -, hpos⟩ := readChars_right 0 n (fun _ => 0) s.console
  obtain ⟨user, hcopy, hcopied, houtside⟩ := hv.copyout bytes (hpos hn) hstops.le
  refine ⟨k, { s with user := user, console := { s.console with taken := s.console.taken + k, output := output } },
    hstops.lineLength, ?_, rfl, rfl, ?_, houtside⟩
  · rw [sysRead_stdin hv.nonnull h]
    simp [readStdin, hloop, hcopy]
  · intro j hj
    show user (buf+j) = _
    rw [hcopied j hj, ← hbytes j hj, Nat.zero_add]

/-- No characters are asked for, none is taken, and the call fails. -/
theorem read_none (hv : ValidBuffer s.user buf 0) (h : IsStandard s.files filehandle STDIN_FILENO) :
    sysRead disk true filehandle buf 0 s = (.error .efault, s) := by
  rw [sysRead_stdin hv.nonnull h]
  simp [readStdin, readChars, copyout_zero _ hv.nonnull hv.below]

theorem write_some (hv : ValidBuffer s.user buf n)
    (h : IsStandard s.files filehandle STDOUT_FILENO ∨ IsStandard s.files filehandle STDERR_FILENO) (hn : 1 ≤ n) :
    WriteRight disk filehandle buf n s := by
  obtain ⟨bytes, hcopy, hbytes⟩ := hv.copyin (fun _ => 0) hn
  refine ⟨(List.range' 0 n).map bytes,
    { s with console := { s.console with output := s.console.output ++ (List.range' 0 n).map bytes } }, ?_, ?_, ?_,
    rfl, rfl⟩
  · simp
  · intro j hj
    simp [hbytes j hj, hj]
  · rw [sysWrite_std hv.nonnull h]
    simp [writeStd, hcopy, writeChars_right]

theorem write_none (hv : ValidBuffer s.user buf 0)
    (h : IsStandard s.files filehandle STDOUT_FILENO ∨ IsStandard s.files filehandle STDERR_FILENO) :
    sysWrite disk true filehandle buf 0 s = (.error .efault, s) := by
  rw [sysWrite_std hv.nonnull h]
  simp [writeStd, copyin_zero _ hv.nonnull hv.below]

theorem readRight_iff (hv : ValidBuffer s.user buf n) (h : IsStandard s.files filehandle STDIN_FILENO) :
    ReadRight disk filehandle buf n s ↔ 1 ≤ n := by
  constructor
  · rintro ⟨k, s', -, hcall, -⟩
    by_contra hn
    have h0 : n = 0 := by omega
    subst h0
    rw [read_none hv h] at hcall
    cases hcall
  · exact read_some hv h

theorem writeRight_iff (hv : ValidBuffer s.user buf n)
    (h : IsStandard s.files filehandle STDOUT_FILENO ∨ IsStandard s.files filehandle STDERR_FILENO) :
    WriteRight disk filehandle buf n s ↔ 1 ≤ n := by
  constructor
  · rintro ⟨bytes, s', -, -, hcall, -⟩
    by_contra hn
    have h0 : n = 0 := by omega
    subst h0
    rw [write_none hv h] at hcall
    cases hcall
  · exact write_some hv h

/-- The console is read and written as it should be, but for calls with no bytes. -/
theorem consoleCalls_iff (disk : DiskCall ω) (filehandle : ℤ) (buf n : ℕ) (s : Machine ω)
    (hv : ValidBuffer s.user buf n) :
    (IsStandard s.files filehandle STDIN_FILENO → (ReadRight disk filehandle buf n s ↔ 1 ≤ n)) ∧
      (IsStandard s.files filehandle STDOUT_FILENO ∨ IsStandard s.files filehandle STDERR_FILENO →
        (WriteRight disk filehandle buf n s ↔ 1 ≤ n)) :=
  ⟨readRight_iff hv, writeRight_iff hv⟩

/-- The console with "ab" and a return typed, and a page of zeros at 4096. -/
def typed : Machine Unit where
  user a := if 4096 ≤ a ∧ a < 8192 then some 0 else none
  console := { input := fun j => if j = 0 then 97 else if j = 1 then 98 else carriageReturn, taken := 0, output := [] }
  files i := if i < 3 then some ⟨i, 0, 0, ()⟩ else none

theorem typed_valid {n : ℕ} (h : n ≤ 4096) : ValidBuffer typed.user 4096 n := by
  refine ⟨by decide, by decide, by unfold USERSPACETOP; omega, ?_⟩
  intro j hj
  have hin : 4096 ≤ 4096+j ∧ 4096+j < 8192 := by omega
  simp [typed, hin]

theorem typed_handle (standard : ℕ) (h : standard < 3) : IsStandard typed.files standard standard := by
  refine ⟨⟨standard, 0, 0, ()⟩, ?_, rfl⟩
  have hfd : ¬((standard : ℤ) < 0 ∨ (standard : ℤ) ≥ 16) := by omega
  rw [localTableGet, if_neg hfd]
  simp [typed, h]

/-- No file on a disk can be read or written. -/
def noDisk : DiskCall Unit := fun _ _ _ s => (.error .ebadf, s)

theorem typed_right : ReadRight noDisk 0 4096 10 typed ∧ WriteRight noDisk 1 4096 10 typed := by
  have hcalls := fun fd => consoleCalls_iff noDisk fd 4096 10 typed (typed_valid (by decide))
  exact ⟨((hcalls 0).1 (typed_handle 0 (by decide))).mpr (by decide),
    ((hcalls 1).2 (.inl (typed_handle 1 (by decide)))).mpr (by decide)⟩

/-- A buffer that is fine for any number of bytes up to a page is refused for none. -/
theorem none_refused : ∃ disk : DiskCall Unit, ValidBuffer typed.user 4096 0 ∧
    sysRead disk true 0 4096 0 typed = (.error .efault, typed) ∧ ¬ReadRight disk 0 4096 0 typed ∧
    sysWrite disk true 1 4096 0 typed = (.error .efault, typed) ∧ ¬WriteRight disk 1 4096 0 typed := by
  have hv := typed_valid (show 0 ≤ 4096 by decide)
  have hin := typed_handle 0 (by decide)
  have hout := typed_handle 1 (by decide)
  refine ⟨noDisk, hv, read_none hv hin, ?_, write_none hv (.inl hout), ?_⟩
  · intro hright
    exact absurd ((readRight_iff hv hin).mp hright) (by decide)
  · intro hright
    exact absurd ((writeRight_iff hv (.inl hout)).mp hright) (by decide)

end OS161.ConsoleCalls
