import OS161.CopyChecks
import OS161.Execv

/-!
# The scan of an argument vector

`sys_execv` counts the pointers of the vector, copies them and then the strings,
and never looks at what `copyin` and `copyinstr` return. Where something cannot
be read, it goes on with what happens to be in the variable or in the buffer.
-/

set_option autoImplicit false

namespace OS161.ArgumentScan

open Function OS161.Vfs OS161.CopyInOut OS161.CopyChecks OS161.Execv

/-- A pointer of the vector, if it can be read. -/
def readPointer (m : UserMemory) (args i : ℕ) : Option ℕ :=
  match copyin m ((args + 4*i) % 2^32) 4 (fun _ => 0) with
  | (none, b) => some (word b)
  | (some _, _) => none

/-- The string can be read up to its end, or as far as it is copied. -/
def ReadableString (m : UserMemory) (p : ℕ) : Prop := (copyinstr m p ARG_MAX_LEN (fun _ => 0)).err ≠ some .efault

/-- The vector can be read up to its `NULL`, and so can its strings. -/
def Readable (m : UserMemory) (args : ℕ) : Prop :=
  ∃ n, (∀ i < n, ∃ w, readPointer m args i = some w ∧ w ≠ 0 ∧ ReadableString m w) ∧ readPointer m args n = some 0

/-- The loop that counts the pointers comes to an end. -/
def ScanEnds (m : UserMemory) (args nextArg : ℕ) : Prop :=
  ∃ fuel argc, countArgs m args fuel 0 (argPointer m args 0 (bytes nextArg)) = some argc

/-- The program can be opened, and `kmalloc` finds memory. -/
structure Granted (progname : ℕ) (o : Answers) (s : Kernel) : Prop where
  opened : ∃ buf v c, o.progname = some buf ∧
    vfsOpen o.fs (programPath s.user progname buf) O_RDONLY s.files.refcount = .ok (.ok v, c)
  argPtrs : o.argPtrs ≠ none
  kArgs : o.kArgs = true
  kArg : ∀ i, o.kArg i ≠ none

/-- The scan ends, and a vector or a string that cannot be read is reported,
whatever memory holds where nothing has been read. -/
def ScansSafely (progname args : ℕ) (s : Kernel) : Prop :=
  ∀ o, Granted progname o s → ScanEnds s.user args o.nextArg ∧
    (¬Readable s.user args → ∃ s', sysExecv progname args o s = .ok (.error .efault, s'))

variable {m : UserMemory} {args progname i n w : ℕ} {s : Kernel} {o : Answers}

/-- A block that has been copied is where it should be. -/
theorem memcpy_bytes {src : ℕ → Option UInt8} {d : Buffer} (hok : (memcpy src (fun _ => true) putIn i n d).1 = true) :
    (∀ j, i ≤ j → j < i+n → src j = some ((memcpy src (fun _ => true) putIn i n d).2 j)) ∧
      ∀ j, j < i → (memcpy src (fun _ => true) putIn i n d).2 j = d j := by
  induction n generalizing i d with
  | zero =>
    refine ⟨?_, fun _ _ => rfl⟩
    intro j hij hj
    omega
  | succ n ih =>
    cases hs : src i with
    | none => simp [memcpy, hs] at hok
    | some b =>
      rw [memcpy_succ hs rfl] at hok ⊢
      obtain ⟨hbytes, hbelow⟩ := ih hok
      constructor
      · intro j hij hj
        by_cases hji : j = i
        · rw [hji, hbelow i (Nat.lt_succ_self i), hs]
          simp [putIn]
        · exact hbytes j (by omega) (by omega)
      · intro j hj
        rw [hbelow j (by omega)]
        exact update_of_ne (by omega) _ _

theorem copyin_bytes {p len : ℕ} {d : Buffer} (hok : (copyin m p len d).1 = none) :
    ∀ j < len, m (p+j) = some ((copyin m p len d).2 j) := by
  unfold copyin at hok ⊢
  obtain ⟨hcheck, hcopy⟩ := copyBlock_none.mp hok
  rw [copyBlock_dest hok]
  intro j hj
  exact (memcpy_bytes hcopy).1 j (Nat.zero_le j) (by omega)

/-- Whether a block can be read does not depend on where it goes. -/
theorem copyin_err {p len : ℕ} {d : Buffer} (d' : Buffer) (hok : (copyin m p len d).1 = none) :
    (copyin m p len d').1 = none := by
  unfold copyin at hok ⊢
  obtain ⟨hcheck, hcopy⟩ := copyBlock_none.mp hok
  rw [memcpy_ok_iff] at hcopy
  exact copyBlock_none.mpr ⟨hcheck, memcpy_ok_iff.mpr hcopy⟩

/-- A pointer that can be read is read, whatever was in the variable. -/
theorem argPointer_read (h : readPointer m args i = some w) (old : Buffer) : argPointer m args i old = w := by
  unfold readPointer at h
  split at h
  · next b hcopy =>
    cases h
    have hok : (copyin m ((args + 4*i) % 2^32) 4 (fun _ => 0)).1 = none := by rw [hcopy]
    have hb := copyin_bytes hok
    have hold := copyin_bytes (copyin_err old hok)
    rw [hcopy] at hb
    have hsame : ∀ j < 4, (copyin m ((args + 4*i) % 2^32) 4 old).2 j = b j := by
      intro j hj
      exact Option.some.inj ((hold j hj).symm.trans (hb j hj))
    unfold argPointer word
    rw [hsame 0 (by decide), hsame 1 (by decide), hsame 2 (by decide), hsame 3 (by decide)]
  · cases h

/-- With enough rounds the loop counts up to the `NULL`. -/
theorem countArgs_reads (hi : i ≤ n) (hw : readPointer m args i = some w)
    (hbefore : ∀ j < n, ∃ w, readPointer m args j = some w ∧ w ≠ 0) (hend : readPointer m args n = some 0) :
    countArgs m args (n-i+1) i w = some n := by
  obtain ⟨k, rfl⟩ : ∃ k, n = i+k := ⟨n-i, by omega⟩
  induction k generalizing i w with
  | zero =>
    rw [Nat.add_zero, hw] at hend
    cases hend
    simp [countArgs]
  | succ k ih =>
    obtain ⟨w', hw', hne⟩ := hbefore i (by omega)
    rw [hw] at hw'
    cases hw'
    obtain ⟨w'', hw''⟩ : ∃ w'', readPointer m args (i+1) = some w'' := by
      by_cases hk : k = 0
      · subst hk
        exact ⟨0, hend⟩
      · obtain ⟨w'', hw'', -⟩ := hbefore (i+1) (by omega)
        exact ⟨w'', hw''⟩
    rw [show i+(k+1)-i+1 = k+1+1 by omega, countArgs, if_neg hne, argPointer_read hw'']
    have hrest := ih (i := i+1) hw'' (by omega) (by rwa [show i+1+k = i+(k+1) by omega])
      (by rwa [show i+1+k = i+(k+1) by omega])
    rwa [show i+1+k-(i+1)+1 = k+1 by omega, show i+1+k = i+(k+1) by omega] at hrest

theorem readable_ends (h : Readable m args) (nextArg : ℕ) : ScanEnds m args nextArg := by
  obtain ⟨n, hbefore, hend⟩ := h
  have hread : ∀ j < n, ∃ w, readPointer m args j = some w ∧ w ≠ 0 := by
    intro j hj
    obtain ⟨w, hw, hne, -⟩ := hbefore j hj
    exact ⟨w, hw, hne⟩
  obtain ⟨w, hw⟩ : ∃ w, readPointer m args 0 = some w := by
    by_cases hn : n = 0
    · subst hn
      exact ⟨0, hend⟩
    · obtain ⟨w, hw, -⟩ := hread 0 (by omega)
      exact ⟨w, hw⟩
  exact ⟨n-0+1, n, by rw [argPointer_read hw]; exact countArgs_reads (Nat.zero_le n) hw hread hend⟩

/-- The program can be opened, but there is no memory for an address space. -/
def spaceless : Answers := { granted with asCreate := none }

theorem spaceless_granted (progname : ℕ) (s : Kernel) : Granted progname spaceless s := by
  refine ⟨⟨_, 9, acquired 9 s.files.refcount, rfl, rfl⟩, ?_, rfl, ?_⟩
  · simp [spaceless, granted]
  · simp [spaceless, granted]

/-- What the call that stops there can return. -/
theorem spaceless_silent (hname : progname ≠ 0) (s' : Kernel) :
    sysExecv progname args spaceless s ≠ .ok (.error .efault, s') := by
  intro h
  have hopen : vfsOpen spaceless.fs (programPath s.user progname (fun _ => 0)) O_RDONLY s.files.refcount =
      .ok (.ok 9, acquired 9 s.files.refcount) := rfl
  have hbuf : spaceless.progname = some (fun _ => 0) := rfl
  simp only [sysExecv, if_neg hname, hbuf, hopen] at h
  split at h
  · cases h
  · cases h
  · rw [loadProgram_noSpace rfl] at h
    cases h

/-- The scan does what it should exactly if there is nothing that cannot be read. -/
theorem scansSafely_iff (hname : progname ≠ 0) : ScansSafely progname args s ↔ Readable s.user args := by
  constructor
  · intro hsafe
    by_contra hno
    obtain ⟨s', hs'⟩ := (hsafe spaceless (spaceless_granted progname s)).2 hno
    exact spaceless_silent hname s' hs'
  · intro hread o _
    exact ⟨readable_ends hread o.nextArg, fun hno => absurd hread hno⟩

theorem word_bytes (h : w < 2^32) : word (bytes w) = w := by
  simp only [word, bytes, UInt8.toNat_ofNat']
  omega

theorem unmapped_pointer (args i : ℕ) (old : Buffer) : argPointer (fun _ => none) args i old = word old := by
  have hsame : (copyin (fun _ => none) ((args + 4*i) % 2^32) 4 old).2 = old := by
    unfold copyin copyBlock
    split
    · rfl
    · split <;> rfl
  rw [argPointer, hsame]

/-- In a process that has no memory the pointer from `kmalloc` is counted for ever. -/
theorem unmapped_endless (args : ℕ) (hp : 0 < w) (hw : w < 2^32) : ¬ScanEnds (fun _ => none) args w := by
  have hnever : ∀ fuel argc, countArgs (fun _ => none) args fuel argc w = none := by
    intro fuel
    induction fuel with
    | zero => exact fun _ => rfl
    | succ fuel ih =>
      intro argc
      rw [countArgs, if_neg (Nat.ne_of_gt hp), unmapped_pointer, word_bytes hw]
      exact ih (argc+1)
  rintro ⟨fuel, argc, hcount⟩
  rw [unmapped_pointer, word_bytes hw, hnever fuel 0] at hcount
  cases hcount

/-- A process whose vector has one pointer, to an address with no memory. -/
def astray : Kernel := { zeroed with
  spaces := fun a => if a = 0 then
      some ⟨AddressSpace.emptySpace, fun va => if va = 4096 then some 0x40 else if va < 8192 then some 0 else none⟩
    else none }

/-- An empty vector. -/
theorem zeroed_safely : ScansSafely 4096 4096 zeroed :=
  (scansSafely_iff (by decide)).mpr ⟨0, fun i hi => absurd hi (Nat.not_lt_zero i), rfl⟩

/-- The program with the stray pointer is entered as if nothing had happened. -/
theorem astray_unreported : Granted 4096 granted astray ∧ ¬Readable astray.user 4096 ∧
    (∃ s', sysExecv 4096 4096 granted astray = .ok (.ok (enterNewProcess 0 0 0 USERSTACK 0x400000), s')) ∧
    ¬ScansSafely 4096 4096 astray := by
  have hgranted : Granted 4096 granted astray := by
    refine ⟨⟨_, 9, acquired 9 astray.files.refcount, rfl, rfl⟩, ?_, rfl, ?_⟩
    · simp [granted]
    · simp [granted]
  have hstray : ¬Readable astray.user 4096 := by
    rintro ⟨n, hbefore, hend⟩
    have hfirst : readPointer astray.user 4096 0 = some 0x40000000 := rfl
    cases n with
    | zero =>
      rw [hfirst] at hend
      cases hend
    | succ n =>
      obtain ⟨w, hw, -, hstring⟩ := hbefore 0 (Nat.succ_pos n)
      rw [hfirst] at hw
      cases hw
      exact hstring rfl
  have henters : ∃ s', sysExecv 4096 4096 granted astray =
      .ok (.ok (enterNewProcess 0 0 0 USERSTACK 0x400000), s') := frameOf_some rfl
  refine ⟨hgranted, hstray, henters, ?_⟩
  intro hsafe
  obtain ⟨s', hs'⟩ := henters
  obtain ⟨s'', hs''⟩ := (hsafe granted hgranted).2 hstray
  rw [hs'] at hs''
  cases hs''

end OS161.ArgumentScan
