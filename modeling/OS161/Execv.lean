import OS161.FileTable
import OS161.LoadElf

/-!
# What a failed or a successful execv leaves behind

`sys_execv` opens the program, copies the arguments into the kernel, puts the
process into a new address space, loads the program there and enters it. Only
the first failures are undone: once the arguments are being copied the vnode is
not given back, and once the address space has been switched it is not switched
back. The arguments are offered to `copyoutstr` at addresses above the user's
part of memory, and the program is entered without them.
-/

set_option autoImplicit false

namespace OS161.Execv

open Function OS161.Vfs OS161.CopyInOut OS161.LoadElf

def MAX_FILENAME_LEN : ℕ := 128
def ARG_MAX_LEN : ℕ := 128
def USERSTACK : ℕ := AddressSpace.userstack

/-- Why a call does not return: a callee stops, memory that has not been
allocated is passed to `kfree` or used, or the arguments do not end. -/
inductive Halt where
  | vfs (stop : Vfs.Stop)
  | space (stop : AddressSpace.Stop)
  | badKfree
  | kernelFault
  | forever
  deriving DecidableEq

/-- `current` is `p_addrspace` of the caller. -/
structure Kernel where
  files : FileTable.State
  current : ℕ
  spaces : ℕ → Option Space
  phys : AddressSpace.Physical

/-- What `kmalloc` returns, with the bytes that are there, and what the functions
outside of this model answer. `next_arg` starts as a pointer from `kmalloc`. -/
structure Answers where
  progname : Option Buffer
  fs : FileSystems
  nextArg : ℕ
  argPtrs : Option (ℕ → Buffer)
  kArgs : Bool
  kArg : ℕ → Option Buffer
  asCreate : Option ℕ
  image : Image

/-- The fields of the trapframe that `enter_new_process` sets. -/
structure Trapframe where
  status : ℕ
  epc : ℕ
  a0 : ℕ
  a1 : ℕ
  a2 : ℕ
  sp : ℕ
  deriving DecidableEq

def enterNewProcess (argc argv env stack entry : ℕ) : Trapframe := ⟨0xff0c, entry, argc, argv, env, stack⟩

def Kernel.user (s : Kernel) : UserMemory :=
  match s.spaces s.current with
  | some sp => sp.mem
  | none => fun _ => none

def Kernel.setRefcount (s : Kernel) (c : Refcounts) : Kernel := { s with files := { s.files with refcount := c } }

inductive Pointer where
  | kmalloced
  | onStack

/-- A pointer into a stack is in no page of small blocks and at no page's start,
which `kfree` asserts. -/
def kfree : Pointer → Except Halt Unit
  | .kmalloced => .ok ()
  | .onStack => .error .badKfree

/-- The path that `vfs_open` gets. -/
def programPath (m : UserMemory) (progname : ℕ) (buf : Buffer) : String :=
  let kProgname := (copyinstr m progname MAX_FILENAME_LEN buf).dest
  String.ofList ((cstring (2^32) kProgname).map (fun b => Char.ofNat b.toNat))

/-- A pointer of the argument array; where it cannot be read the old value stays. -/
def argPointer (m : UserMemory) (args i : ℕ) (old : Buffer) : ℕ :=
  word (copyin m ((args + 4*i) % 2^32) 4 old).2

/-- The number of arguments. After twice around the address space nothing new
is read, and the loop does not end. -/
def countArgs (m : UserMemory) (args : ℕ) : (fuel argc nextArg : ℕ) → Option ℕ
  | 0, _, _ => none
  | fuel+1, argc, nextArg =>
    if nextArg = 0 then some argc
    else countArgs m args fuel (argc+1) (argPointer m args (argc+1) (bytes nextArg))

def argCount (m : UserMemory) (args nextArg : ℕ) : Option ℕ :=
  countArgs m args (2^31) 0 (argPointer m args 0 (bytes nextArg))

/-- A copy of an argument as it is in the kernel. -/
def argCopy (m : UserMemory) (args i : ℕ) (argPtrs : ℕ → Buffer) (buf : Buffer) : Buffer :=
  (copyinstr m (argPointer m args i (argPtrs i)) ARG_MAX_LEN buf).dest

/-- The loop that copies the arguments; it is left at the first one whose last byte is set. -/
def copyArgs (m : UserMemory) (args : ℕ) (argPtrs : ℕ → Buffer) (kArg : ℕ → Option Buffer) :
    List ℕ → Except Halt (Option (List Buffer))
  | [] => .ok (some [])
  | i::is =>
    match kArg i with
    | none => .error .kernelFault
    | some buf =>
      let k := argCopy m args i argPtrs buf
      if k (ARG_MAX_LEN-1) ≠ 0 then .ok none
      else match copyArgs m args argPtrs kArg is with
        | .error h => .error h
        | .ok none => .ok none
        | .ok (some ks) => .ok (some (k::ks))

/-- From the first `kmalloc` for the arguments on. An array that is not there, or
whose size leaves 32 bits, is used all the same if there are arguments. -/
def copyCounted (m : UserMemory) (args : ℕ) (o : Answers) (argc : ℕ) : Except Halt (Option (List Buffer)) :=
  if argc = 0 then .ok (some [])
  else match o.argPtrs with
    | none => .error .kernelFault
    | some argPtrs =>
      if 2^32 ≤ 4*argc ∨ o.kArgs = false then .error .kernelFault
      else copyArgs m args argPtrs o.kArg (List.range argc)

def getArguments (m : UserMemory) (args : ℕ) (o : Answers) : Except Halt (Option (List Buffer)) :=
  match argCount m args o.nextArg with
  | none => .error .forever
  | some argc => copyCounted m args o argc

/-- The return with `E2BIG`. -/
def argumentTooLong (s : Kernel) : Except Halt (Except Errno Trapframe × Kernel) := do
  kfree .kmalloced
  kfree .kmalloced
  kfree .onStack
  kfree .kmalloced
  .ok (.error .e2big, s)

def placeArguments (stackptr : ℕ) : List Buffer → ℕ → UserMemory → UserMemory
  | [], _, m => m
  | k::ks, i, m => placeArguments stackptr ks (i+1) (copyoutstr k ((stackptr + ARG_MAX_LEN*i) % 2^32) ARG_MAX_LEN m).dest

/-- From `as_define_stack` on. -/
def enterProgram (as entrypoint : ℕ) (sp : Space) (kArgs : List Buffer) (s : Kernel) :
    Except Halt (Except Errno Trapframe × Kernel) :=
  if sp.regions.stackpbase = 0 then .error (.space .assertion)
  else
    let sp' := { sp with mem := placeArguments USERSTACK kArgs 0 sp.mem }
    .ok (.ok (enterNewProcess 0 0 0 USERSTACK entrypoint), { s with spaces := update s.spaces as (some sp') })

/-- From `as_create` on. -/
def loadProgram (v : ℕ) (kArgs : List Buffer) (o : Answers) (s : Kernel) :
    Except Halt (Except Errno Trapframe × Kernel) :=
  match o.asCreate with
  | none =>
    match vfsClose v s.files.refcount with
    | .error stop => .error (.vfs stop)
    | .ok c => .ok (.error .enomem, s.setRefcount c)
  | some as =>
    if s.spaces as ≠ none then .error (.vfs .blocked)
    else match loadElf o.image LoadElf.asCreate s.phys with
      | .error stop => .error (.space stop)
      | .ok (result, sp, phys) =>
        match vfsClose v s.files.refcount with
        | .error stop => .error (.vfs stop)
        | .ok c =>
          let s' := { s.setRefcount c with current := as, spaces := update s.spaces as (some sp), phys := phys }
          match result with
          | .error e => .ok (.error e, s')
          | .ok entrypoint => enterProgram as entrypoint sp kArgs s'

def sysExecv (progname args : ℕ) (o : Answers) (s : Kernel) : Except Halt (Except Errno Trapframe × Kernel) :=
  if progname = 0 then .ok (.error .enoent, s)
  else match o.progname with
    | none => .ok (.error .enomem, s)
    | some buf =>
      match vfsOpen o.fs (programPath s.user progname buf) O_RDONLY s.files.refcount with
      | .error stop => .error (.vfs stop)
      | .ok (.error e, c) => .ok (.error e, s.setRefcount c)
      | .ok (.ok v, c) =>
        match getArguments s.user args o with
        | .error h => .error h
        | .ok none => argumentTooLong (s.setRefcount c)
        | .ok (some kArgs) => loadProgram v kArgs o (s.setRefcount c)

/-- What a call that fails has to leave as it was. -/
structure Unharmed (s s' : Kernel) : Prop where
  current : s'.current = s.current
  contents : s'.spaces s.current = s.spaces s.current
  refcount : s'.files.refcount = s.files.refcount
  locals : s'.files.locals = s.files.locals

/-- The call returns an error, or would if `kfree` took any pointer. -/
def Fails (r : Except Halt (Except Errno Trapframe × Kernel)) : Prop :=
  r = .error .badKfree ∨ ∃ e s', r = .ok (.error e, s')

def FailsCleanly (s : Kernel) (r : Except Halt (Except Errno Trapframe × Kernel)) : Prop :=
  r ≠ .error .badKfree ∧ ∀ e s', r = .ok (.error e, s') → Unharmed s s'

/-- `vfs_open` refuses the program. -/
def Refused (progname : ℕ) (o : Answers) (s : Kernel) : Prop :=
  ∃ buf e c, o.progname = some buf ∧
    vfsOpen o.fs (programPath s.user progname buf) O_RDONLY s.files.refcount = .ok (.error e, c)

/-- No argument sets the last byte of its copy. -/
def ArgumentsFit (args : ℕ) (o : Answers) (s : Kernel) : Prop :=
  ∀ argc argPtrs, argCount s.user args o.nextArg = some argc → o.argPtrs = some argPtrs →
    ∀ i < argc, ∀ buf, o.kArg i = some buf → argCopy s.user args i argPtrs buf (ARG_MAX_LEN-1) = 0

/-- The failures that are undone. -/
def FailsEarly (progname args : ℕ) (o : Answers) (s : Kernel) : Prop :=
  progname = 0 ∨ o.progname = none ∨ Refused progname o s ∨ (ArgumentsFit args o s ∧ o.asCreate = none)

variable {s s' : Kernel} {o : Answers} {m : UserMemory} {progname args : ℕ}

theorem Unharmed.refl : Unharmed s s := ⟨rfl, rfl, rfl, rfl⟩

theorem Unharmed.setRefcount : Unharmed s (s.setRefcount s.files.refcount) := ⟨rfl, rfl, rfl, rfl⟩

theorem FailsCleanly.of_unharmed {e : Errno} (h : Unharmed s s') : FailsCleanly s (.ok (.error e, s')) := by
  constructor
  · intro hr
    cases hr
  · intro e' t hr
    cases hr
    exact h

theorem FailsCleanly.of_halt {h : Halt} (hne : h ≠ .badKfree) : FailsCleanly s (.error h) := by
  constructor
  · intro hr
    cases hr
    exact hne rfl
  · intro e t hr
    cases hr

theorem copyArgs_halt {argPtrs : ℕ → Buffer} {kArg : ℕ → Option Buffer} {is : List ℕ} {h : Halt}
    (hc : copyArgs m args argPtrs kArg is = .error h) : h ≠ .badKfree := by
  induction is with
  | nil => cases hc
  | cons i is ih =>
    simp only [copyArgs] at hc
    split at hc
    · cases hc
      simp
    · split at hc
      · cases hc
      · split at hc
        · next h' hrest =>
          cases hc
          exact ih hrest
        · cases hc
        · cases hc

/-- The copies are all made exactly if every argument fits. -/
theorem copyArgs_fit {argPtrs : ℕ → Buffer} {kArg : ℕ → Option Buffer} {is : List ℕ} {r : Option (List Buffer)}
    (hc : copyArgs m args argPtrs kArg is = .ok r) :
    r ≠ none ↔ ∀ i ∈ is, ∀ buf, kArg i = some buf → argCopy m args i argPtrs buf (ARG_MAX_LEN-1) = 0 := by
  induction is generalizing r with
  | nil =>
    cases hc
    simp
  | cons i is ih =>
    simp only [copyArgs] at hc
    split at hc
    · cases hc
    · next buf hbuf =>
      by_cases hlong : argCopy m args i argPtrs buf (ARG_MAX_LEN-1) = 0
      · simp only [hlong, ne_eq, not_true_eq_false, if_false] at hc
        rw [List.forall_mem_cons]
        have hfirst : ∀ b, kArg i = some b → argCopy m args i argPtrs b (ARG_MAX_LEN-1) = 0 := by
          intro b hb
          rw [hbuf] at hb
          cases hb
          exact hlong
        split at hc
        · cases hc
        · next hrest =>
          cases hc
          rw [← ih hrest]
          simp
        · next ks hrest =>
          cases hc
          have hall := (ih hrest).mp (by simp)
          simp only [ne_eq, reduceCtorEq, not_false_eq_true, true_iff]
          exact ⟨hfirst, hall⟩
      · simp only [ne_eq, hlong, not_false_eq_true, if_true] at hc
        cases hc
        simp only [ne_eq, not_true_eq_false, false_iff]
        intro hall
        exact hlong (hall i List.mem_cons_self buf hbuf)

theorem copyCounted_halt {argc : ℕ} {h : Halt} (hg : copyCounted m args o argc = .error h) : h ≠ .badKfree := by
  unfold copyCounted at hg
  split at hg
  · cases hg
  · split at hg
    · cases hg
      simp
    · split at hg
      · cases hg
        simp
      · exact copyArgs_halt hg

theorem copyCounted_fit {argc : ℕ} {r : Option (List Buffer)} (hg : copyCounted m args o argc = .ok r) :
    r ≠ none ↔ ∀ argPtrs, o.argPtrs = some argPtrs →
      ∀ i < argc, ∀ buf, o.kArg i = some buf → argCopy m args i argPtrs buf (ARG_MAX_LEN-1) = 0 := by
  unfold copyCounted at hg
  split at hg
  · next hzero =>
    cases hg
    simp [hzero]
  · split at hg
    · cases hg
    · next argPtrs hptrs =>
      split at hg
      · cases hg
      · rw [copyArgs_fit hg]
        constructor
        · intro hall argPtrs' hptrs' i hi buf hbuf
          rw [hptrs] at hptrs'
          cases hptrs'
          exact hall i (List.mem_range.mpr hi) buf hbuf
        · intro hfit i hi buf hbuf
          exact hfit argPtrs hptrs i (List.mem_range.mp hi) buf hbuf

theorem getArguments_halt {h : Halt} (hg : getArguments m args o = .error h) : h ≠ .badKfree := by
  unfold getArguments at hg
  generalize argCount m args o.nextArg = count at hg
  cases count with
  | none =>
    cases hg
    simp
  | some argc => exact copyCounted_halt hg

theorem getArguments_fit {r : Option (List Buffer)} (hg : getArguments s.user args o = .ok r) :
    r ≠ none ↔ ArgumentsFit args o s := by
  unfold getArguments at hg
  unfold ArgumentsFit
  generalize argCount s.user args o.nextArg = count at hg ⊢
  cases count with
  | none => cases hg
  | some argc =>
    rw [copyCounted_fit hg]
    constructor
    · intro hall argc' argPtrs hargc
      cases hargc
      exact hall argPtrs
    · intro hall argPtrs
      exact hall argc argPtrs rfl

theorem argumentTooLong_halts : argumentTooLong s = .error .badKfree := rfl

/-- Entering the program is no failure. -/
theorem enterProgram_succeeds {as entrypoint : ℕ} {sp : Space} {ks : List Buffer} :
    ¬Fails (enterProgram as entrypoint sp ks s) := by
  unfold enterProgram
  split
  · simp [Fails]
  · simp [Fails]

/-- Without a new address space the program is closed again. -/
theorem loadProgram_noSpace {v : ℕ} {ks : List Buffer} (hnone : o.asCreate = none) :
    loadProgram v ks o (s.setRefcount (acquired v s.files.refcount)) =
      .ok (.error .enomem, s.setRefcount s.files.refcount) := by
  simp only [loadProgram, hnone, Kernel.setRefcount, vfsClose, decref_acquired]

/-- With one, a failure comes after it has been switched to. -/
theorem loadProgram_fails {v as : ℕ} {ks : List Buffer} (hsome : o.asCreate = some as)
    (hfails : Fails (loadProgram v ks o s)) :
    ∃ e s' sp, loadProgram v ks o s = .ok (.error e, s') ∧ s.spaces as = none ∧ s'.current = as ∧
      s'.spaces as = some sp := by
  unfold loadProgram at hfails ⊢
  simp only [hsome] at hfails ⊢
  by_cases hnew : s.spaces as = none
  · simp only [hnew, ne_eq, not_true_eq_false, if_false] at hfails ⊢
    cases hload : loadElf o.image LoadElf.asCreate s.phys with
    | error stop => simp [hload, Fails] at hfails
    | ok r =>
      obtain ⟨result, sp, phys⟩ := r
      simp only [hload] at hfails ⊢
      cases hclose : vfsClose v s.files.refcount with
      | error stop => simp [hclose, Fails] at hfails
      | ok c =>
        simp only [hclose] at hfails ⊢
        cases result with
        | error e => exact ⟨e, _, sp, rfl, trivial, rfl, update_self ..⟩
        | ok entrypoint => exact absurd hfails enterProgram_succeeds
  · simp only [ne_eq, hnew, not_false_eq_true, if_true] at hfails
    simp [Fails] at hfails

/-- Such a failure does not leave the address space of the process. -/
theorem loadProgram_harms {v as : ℕ} {c : Refcounts} {ks : List Buffer} (hsome : o.asCreate = some as)
    (hfails : Fails (loadProgram v ks o (s.setRefcount c))) : ¬FailsCleanly s (loadProgram v ks o (s.setRefcount c)) := by
  obtain ⟨e, s', sp, hr, hnew, hcurrent, hsp⟩ := loadProgram_fails hsome hfails
  rintro ⟨-, hclean⟩
  have hun := hclean e s' hr
  have has : as = s.current := by
    rw [← hcurrent]
    exact hun.current
  have hsame := hun.contents
  rw [← has, hsp] at hsame
  have hold : s.spaces as = none := hnew
  rw [hold] at hsame
  cases hsame

/-- A call that fails leaves everything as it was exactly if it fails before it
finds an argument too long and before it switches to a new address space. -/
theorem sysExecv_clean_iff (hfails : Fails (sysExecv progname args o s)) :
    FailsCleanly s (sysExecv progname args o s) ↔ FailsEarly progname args o s := by
  unfold sysExecv at hfails ⊢
  by_cases hname : progname = 0
  · simp only [hname, if_true] at hfails ⊢
    exact ⟨fun _ => .inl rfl, fun _ => .of_unharmed .refl⟩
  · simp only [hname, if_false] at hfails ⊢
    cases hbuf : o.progname with
    | none =>
      simp only [hbuf] at hfails ⊢
      exact ⟨fun _ => .inr (.inl hbuf), fun _ => .of_unharmed .refl⟩
    | some buf =>
      simp only [hbuf] at hfails ⊢
      obtain ⟨e, hopen⟩ | ⟨v, hopen⟩ :=
        vfsOpen_spec o.fs (programPath s.user progname buf) O_RDONLY s.files.refcount
      · simp only [hopen] at hfails ⊢
        exact ⟨fun _ => .inr (.inr (.inl ⟨buf, e, _, hbuf, hopen⟩)), fun _ => .of_unharmed .setRefcount⟩
      · simp only [hopen] at hfails ⊢
        have hfits : FailsEarly progname args o s ↔ ArgumentsFit args o s ∧ o.asCreate = none := by
          constructor
          · rintro (h | h | ⟨buf', e, c, hbuf', hrefused⟩ | h)
            · exact absurd h hname
            · simp [hbuf] at h
            · rw [hbuf] at hbuf'
              cases hbuf'
              rw [hopen] at hrefused
              cases hrefused
            · exact h
          · exact fun h => .inr (.inr (.inr h))
        rw [hfits]
        cases hget : getArguments s.user args o with
        | error h =>
          simp only [hget] at hfails
          have hne := getArguments_halt hget
          simp [Fails, hne] at hfails
        | ok r =>
          have hfit := getArguments_fit hget
          cases r with
          | none =>
            have hno : ¬ArgumentsFit args o s := fun h => hfit.mpr h rfl
            simp only [argumentTooLong_halts]
            exact ⟨fun h => absurd rfl h.1, fun h => absurd h.1 hno⟩
          | some ks =>
            simp only [hget] at hfails ⊢
            have hyes : ArgumentsFit args o s := hfit.mp (by simp)
            cases hcreate : o.asCreate with
            | none =>
              rw [loadProgram_noSpace hcreate]
              exact ⟨fun _ => ⟨hyes, rfl⟩, fun _ => .of_unharmed .setRefcount⟩
            | some as =>
              have hharm := loadProgram_harms hcreate hfails
              exact ⟨fun h => absurd h hharm, fun h => absurd h.2 (by simp)⟩

/-- A process whose memory is all zero. -/
def zeroed : Kernel where
  files := FileTable.globalTableCreate (fun vn => if vn = 9 then 1 else 0)
  current := 0
  spaces := fun a => if a = 0 then some ⟨AddressSpace.emptySpace, fun _ => some 0⟩ else none
  phys := ⟨⟨4096, 0x100000⟩, fun _ => 0⟩

/-- The program is vnode 9, a file of two segments, and what is asked for is to be had. -/
def granted : Answers where
  progname := some (fun _ => 0)
  fs := ⟨fun _ => .error .enoent, fun _ _ _ => .error .enoent, fun _ => .ok 9, fun _ _ => none, fun _ => none⟩
  nextArg := 0x80001000
  argPtrs := some (fun _ _ => 0)
  kArgs := true
  kArg := fun _ => some (fun _ => 0)
  asCreate := some 1
  image := {
    ehdr := .ok (some ⟨[0x7f, 0x45, 0x4c, 0x46, 1, 2, 1], 2, 8, 1, 0x400000, 52, 32, 2⟩)
    phdr := fun _ offset => .ok (some (if offset = 52 then ⟨PT_LOAD, 0, 0x400000, 1, 1⟩
      else ⟨PT_LOAD, 0, 0x500000, 1, 1⟩))
    segment := fun _ _ => ([7], none) }

/-- No memory for the address space: the program is closed again. -/
theorem noSpace_clean : FailsCleanly zeroed (sysExecv 4096 4096 { granted with asCreate := none } zeroed) :=
  (sysExecv_clean_iff (.inr ⟨.enomem, _, rfl⟩)).mpr
    (.inr (.inr (.inr ⟨fun _ _ h _ i hi => by cases h; omega, rfl⟩)))

/-- A file that is no program: the process is left in the address space that was
to be for it. -/
theorem noProgram_switched : ∃ s', sysExecv 4096 4096
      { granted with image := { granted.image with ehdr := .ok none } } zeroed = .ok (.error .enoexec, s') ∧
    zeroed.current = 0 ∧ s'.current = 1 ∧ ¬FailsCleanly zeroed
      (sysExecv 4096 4096 { granted with image := { granted.image with ehdr := .ok none } } zeroed) := by
  refine ⟨_, rfl, rfl, rfl, ?_⟩
  rintro ⟨-, hclean⟩
  have hcurrent := (hclean _ _ rfl).current
  cases hcurrent

/-- The word at an address of a process. -/
def userWord (m : UserMemory) (p : ℕ) : Option ℕ :=
  match m p, m (p+1), m (p+2), m (p+3) with
  | some a, some b, some c, some d => some (2^24 * a.toNat + 2^16 * b.toNat + 2^8 * c.toNat + d.toNat)
  | _, _, _, _ => none

/-- A string at an address of a process, with its terminator. -/
def IsString (m : UserMemory) (p : ℕ) (arg : List UInt8) : Prop :=
  (∀ i (hi : i < arg.length), m (p+i) = some arg[i]) ∧ m (p+arg.length) = some 0

/-- What a program that is entered has been told of its arguments. -/
structure ArgumentsPassed (arguments : List (List UInt8)) (tf : Trapframe) (m : UserMemory) : Prop where
  argc : tf.a0 = arguments.length
  strings : ∀ i (hi : i < arguments.length), ∃ p, userWord m (tf.a1 + 4*i) = some p ∧
    IsString m p arguments[i] ∧ tf.sp ≤ p ∧ p + arguments[i].length < USERSTACK
  terminator : userWord m (tf.a1 + 4*arguments.length) = some 0
  above : tf.sp ≤ tf.a1
  inside : tf.a1 + 4*(arguments.length+1) ≤ USERSTACK

/-- The copies go to the kernel's part of memory, where `copyoutstr` refuses them. -/
theorem placeArguments_nothing {ks : List Buffer} {i : ℕ} (hfew : i + ks.length ≤ 2^24) :
    placeArguments USERSTACK ks i m = m := by
  induction ks generalizing i with
  | nil => rfl
  | cons k ks ih =>
    rw [List.length_cons] at hfew
    have hsmall : USERSTACK + ARG_MAX_LEN*i < 2^32 := by
      simp only [USERSTACK, AddressSpace.userstack, PhysicalMemory.kseg0, ARG_MAX_LEN]
      omega
    have hkernel : USERSPACETOP ≤ (USERSTACK + ARG_MAX_LEN*i) % 2^32 := by
      rw [Nat.mod_eq_of_lt hsmall]
      exact Nat.le_add_right _ _
    rw [placeArguments, copyoutstr_above k hkernel]
    exact ih (by omega)

theorem enterProgram_frame {as entrypoint : ℕ} {sp : Space} {ks : List Buffer} {tf : Trapframe}
    (h : enterProgram as entrypoint sp ks s = .ok (.ok tf, s')) :
    tf = enterNewProcess 0 0 0 USERSTACK entrypoint := by
  unfold enterProgram at h
  split at h
  · cases h
  · cases h
    rfl

theorem loadProgram_frame {v : ℕ} {ks : List Buffer} {tf : Trapframe}
    (h : loadProgram v ks o s = .ok (.ok tf, s')) : ∃ entrypoint, tf = enterNewProcess 0 0 0 USERSTACK entrypoint := by
  unfold loadProgram at h
  split at h
  · split at h <;> cases h
  · split at h
    · cases h
    · split at h
      · cases h
      · split at h
        · cases h
        · split at h
          · cases h
          · next entrypoint _ => exact ⟨entrypoint, enterProgram_frame h⟩

/-- Every program is entered with no arguments and an empty stack. -/
theorem sysExecv_frame {tf : Trapframe} (h : sysExecv progname args o s = .ok (.ok tf, s')) :
    ∃ entrypoint, tf = enterNewProcess 0 0 0 USERSTACK entrypoint := by
  unfold sysExecv at h
  split at h
  · cases h
  · split at h
    · cases h
    · split at h
      · cases h
      · cases h
      · split at h
        · cases h
        · cases h
        · exact loadProgram_frame h

/-- No program is passed its arguments, whichever they are, not even an empty list. -/
theorem sysExecv_drops {arguments : List (List UInt8)} {tf : Trapframe}
    (h : sysExecv progname args o s = .ok (.ok tf, s')) : ¬ArgumentsPassed arguments tf s'.user := by
  obtain ⟨entrypoint, rfl⟩ := sysExecv_frame h
  intro hpassed
  have habove : USERSTACK ≤ 0 := hpassed.above
  simp [USERSTACK, AddressSpace.userstack, PhysicalMemory.kseg0] at habove

/-- A process that calls with one argument, which is at address 8192. -/
def calling : Kernel := { zeroed with
  spaces := fun a => if a = 0 then
      some ⟨AddressSpace.emptySpace, fun va => if va = 4098 then some 0x20 else if va = 8192 then some 0x61 else some 0⟩
    else none }

/-- The trapframe of a call that succeeds. -/
def frameOf : Except Halt (Except Errno Trapframe × Kernel) → Option Trapframe
  | .ok (.ok tf, _) => some tf
  | _ => none

theorem frameOf_some {r : Except Halt (Except Errno Trapframe × Kernel)} {tf : Trapframe} (h : frameOf r = some tf) :
    ∃ s', r = .ok (.ok tf, s') := by
  unfold frameOf at h
  split at h
  · next tf' t =>
    cases h
    exact ⟨t, rfl⟩
  · cases h

theorem calling_enters : ∃ s', sysExecv 4096 4096 granted calling =
    .ok (.ok (enterNewProcess 0 0 0 USERSTACK 0x400000), s') :=
  frameOf_some rfl

theorem calling_drops : ∃ s', sysExecv 4096 4096 granted calling =
      .ok (.ok (enterNewProcess 0 0 0 USERSTACK 0x400000), s') ∧
    ¬ArgumentsPassed [[0x61]] (enterNewProcess 0 0 0 USERSTACK 0x400000) s'.user := by
  obtain ⟨s', hs⟩ := calling_enters
  exact ⟨s', hs, sysExecv_drops hs⟩

/-- The program is told that there are none. -/
theorem calling_miscounts : argCount calling.user 4096 granted.nextArg = some 1 ∧
    IsString calling.user 8192 [0x61] ∧ userWord calling.user 4096 = some 8192 ∧
    ∃ s', sysExecv 4096 4096 granted calling =
        .ok (.ok (enterNewProcess 0 0 0 USERSTACK 0x400000), s') ∧
      ¬ArgumentsPassed [[0x61]] (enterNewProcess 0 0 0 USERSTACK 0x400000) s'.user := by
  obtain ⟨s', hs⟩ := calling_enters
  refine ⟨rfl, ?_, rfl, s', hs, ?_⟩
  · constructor
    · intro i hi
      obtain rfl : i = 0 := by simpa using hi
      rfl
    · rfl
  · intro hpassed
    cases hpassed.argc

end OS161.Execv
