import OS161.CopyInOut
import OS161.SharedDescriptor

/-!
# Seeking, and the registers it goes through

A position has 64 bits and the registers have 32. The dispatcher joins two of
them to a position, fetches `whence` from the caller's stack, and splits the
position that it gets back. The sum of a base and an offset is computed in 64
bits; where it does not fit it comes out negative, and is refused as such.
-/

set_option autoImplicit false

namespace OS161.Lseek

open Function OS161.Vfs OS161.CopyInOut
open OS161.SharedDescriptor (Vnode Desc Answer Value SEEK_SET SEEK_CUR SEEK_END setPosition lseek)

/-- The numbers of the errors, as the caller gets them. -/
def code : Errno → UInt32
  | .enosys => 1
  | .enomem => 3
  | .efault => 6
  | .enametoolong => 7
  | .einval => 8
  | .emproc => 11
  | .enproc => 12
  | .enoexec => 13
  | .e2big => 14
  | .esrch => 15
  | .echild => 16
  | .enotdir => 17
  | .eisdir => 18
  | .enoent => 19
  | .eexist => 22
  | .enodev => 25
  | .enxio => 26
  | .ebusy => 27
  | .emfile => 28
  | .enfile => 29
  | .ebadf => 30
  | .eio => 32
  | .espipe => 33
  | .enospc => 36
  | .efbig => 38

/-- The registers of a trapframe that a seek reads or sets. -/
structure Trapframe where
  v0 : UInt32
  v1 : UInt32
  a0 : UInt32
  a2 : UInt32
  a3 : UInt32
  sp : UInt32
  epc : UInt32

def join32to64 (x1 x2 : UInt32) : UInt64 := (x1.toUInt64 <<< 32) ||| x2.toUInt64

def split64to32 (x : UInt64) : UInt32 × UInt32 := ((x >>> 32).toUInt32, (x &&& 0xffffffff).toUInt32)

variable {ω : Type}

/-- An entry of a local table: `standard` is -1 for a file on a disk. -/
structure OpenFile (ω : Type) where
  standard : ℤ
  desc : Desc ω

abbrev LocalTable (ω : Type) := ℕ → Option (OpenFile ω)

def localTableGet (files : LocalTable ω) (fd : ℤ) : Option (OpenFile ω) :=
  if fd < 0 ∨ fd ≥ 16 then none else files fd.toNat

/-- The number that a call returns, as 64 bits. -/
def bits : Value → UInt64
  | .count n => n.toUInt64
  | .position p => p.toUInt64

def sysLseek (v : Vnode ω) (fd : ℤ) (pos : Int64) (whence : ℤ) (files : LocalTable ω) :
    Except Errno Value × LocalTable ω :=
  match localTableGet files fd with
  | none => (.error .ebadf, files)
  | some file =>
    if file.standard ≠ -1 then (.error .espipe, files)
    else
      let (answer, desc) := lseek v pos whence file.desc
      (answer.result, update files fd.toNat (some { file with desc := desc }))

/-- The return to the caller. -/
def finish (result : Except Errno (UInt32 × UInt32)) (tf : Trapframe) : Trapframe :=
  match result with
  | .error e => { tf with v0 := code e, a3 := 1, epc := tf.epc + 4 }
  | .ok (retval, retval2) => { tf with v0 := retval, v1 := retval2, a3 := 0, epc := tf.epc + 4 }

/-- The case `SYS_lseek` of `syscall`. -/
def syscallLseek (v : Vnode ω) (m : UserMemory) (tf : Trapframe) (files : LocalTable ω) : Trapframe × LocalTable ω :=
  let pos := (join32to64 tf.a2 tf.a3).toInt64
  match copyin m (tf.sp + 16).toNat 4 (fun _ => 0) with
  | (some e, _) => (finish (.error e) tf, files)
  | (none, whence) =>
    match sysLseek v tf.a0.toInt32.toInt pos (UInt32.ofNat (word whence)).toInt32.toInt files with
    | (.error e, files') => (finish (.error e) tf, files')
    | (.ok value, files') => (finish (.ok (split64to32 (bits value))) tf, files')

/-- What a position is added to: nothing, the position so far or the size. -/
def base (v : Vnode ω) (whence : ℤ) (d : Desc ω) : Option ℤ :=
  if whence = SEEK_SET then some 0
  else if whence = SEEK_CUR then some d.seekLocation.toInt
  else if whence = SEEK_END then
    match (v.stat d.world).1 with
    | .ok size => some size.toInt
    | .error _ => none
  else none

/-- The sum is a position: it neither is negative nor leaves 64 bits. -/
def Reaches (v : Vnode ω) (pos : Int64) (whence : ℤ) (d : Desc ω) (newPos : ℤ) : Prop :=
  ∃ b, base v whence d = some b ∧ newPos = b + pos.toInt ∧ 0 ≤ newPos ∧ newPos ≤ 2^63-1

/-- A seek returns the exact sum and moves there, or returns an error and stays. -/
structure SeeksExactly (v : Vnode ω) (pos : Int64) (whence : ℤ) (d : Desc ω) (r : Except Errno Value)
    (d' : Desc ω) : Prop where
  succeeds : (∃ value, r = .ok value) ↔ ∃ newPos, Reaches v pos whence d newPos
  exact : ∀ value, r = .ok value → ∃ p : Int64, value = .position p ∧ Reaches v pos whence d p.toInt ∧
    d'.seekLocation = p
  stays : ∀ e, r = .error e → d'.seekLocation = d.seekLocation

variable {v : Vnode ω} {d d' : Desc ω} {pos b : Int64} {whence : ℤ}

/-- A sum of a base that is a position and any offset is exact unless it wraps
around, and then it is negative. -/
theorem sum_nonneg (hb : 0 ≤ b.toInt) :
    0 ≤ (b+pos).toInt ↔ 0 ≤ b.toInt + pos.toInt ∧ b.toInt + pos.toInt ≤ 2^63-1 := by
  have hblt := b.toInt_lt
  have hplow := pos.le_toInt
  have hplt := pos.toInt_lt
  rw [Int64.toInt_add, Int.bmod_def]
  omega

theorem sum_exact (hb : 0 ≤ b.toInt) (hsum : 0 ≤ (b+pos).toInt) : (b+pos).toInt = b.toInt + pos.toInt := by
  have hplow := pos.le_toInt
  have hrange := (sum_nonneg hb).mp hsum
  rw [Int64.toInt_add, Int.bmod_def]
  omega

theorem setPosition_cases (newPos : Int64) (d : Desc ω) :
    (0 ≤ newPos.toInt ∧ setPosition newPos d = (⟨.ok (.position newPos), none⟩, { d with seekLocation := newPos })) ∨
      (newPos.toInt < 0 ∧ setPosition newPos d = (⟨.error .einval, none⟩, d)) := by
  have hneg : newPos < 0 ↔ newPos.toInt < 0 := by rw [Int64.lt_iff_toInt_lt, Int64.toInt_zero]
  unfold setPosition
  by_cases h : newPos < 0
  · exact .inr ⟨hneg.mp h, if_pos h⟩
  · exact .inl ⟨Int.not_lt.mp (fun hlt => h (hneg.mpr hlt)), if_neg h⟩

/-- Each kind of seek, once its base is known. -/
theorem setPosition_exact (hb : 0 ≤ b.toInt) (hbase : base v whence d = some b.toInt)
    (hd : d'.seekLocation = d.seekLocation) :
    SeeksExactly v pos whence d (setPosition (b+pos) d').1.result (setPosition (b+pos) d').2 := by
  have hreach : (∃ newPos, Reaches v pos whence d newPos) ↔ 0 ≤ (b+pos).toInt := by
    rw [sum_nonneg hb]
    constructor
    · rintro ⟨newPos, c, hc, rfl, hlow, hhigh⟩
      rw [hbase] at hc
      cases hc
      exact ⟨hlow, hhigh⟩
    · rintro ⟨hlow, hhigh⟩
      exact ⟨_, b.toInt, hbase, rfl, hlow, hhigh⟩
  obtain ⟨hpos, heq⟩ | ⟨hneg, heq⟩ := setPosition_cases (b+pos) d'
  · rw [heq]
    refine ⟨?_, ?_, ?_⟩
    · rw [hreach]
      exact ⟨fun _ => hpos, fun _ => ⟨_, rfl⟩⟩
    · rintro value ⟨⟩
      have hrange := (sum_nonneg hb).mp hpos
      have hexact := sum_exact hb hpos
      exact ⟨b+pos, rfl, ⟨b.toInt, hbase, hexact, hpos, by omega⟩, rfl⟩
    · intro e he
      cases he
  · rw [heq]
    refine ⟨?_, ?_, ?_⟩
    · rw [hreach]
      simp only [reduceCtorEq, exists_false, false_iff]
      omega
    · intro value hvalue
      cases hvalue
    · intro _ _
      exact hd

theorem refused_exact {e : Errno} (hbase : base v whence d = none) (hd : d'.seekLocation = d.seekLocation) :
    SeeksExactly v pos whence d (.error e) d' := by
  refine ⟨?_, ?_, fun _ _ => hd⟩
  · simp [Reaches, hbase]
  · intro value hvalue
    cases hvalue

theorem lseek_exact (hseekable : v.isSeekable d.world = true) (hpos : 0 ≤ d.seekLocation.toInt)
    (hsize : ∀ size w, v.stat d.world = (.ok size, w) → 0 ≤ size.toInt) :
    SeeksExactly v pos whence d (lseek v pos whence d).1.result (lseek v pos whence d).2 := by
  unfold lseek
  simp only [hseekable, Bool.not_true, Bool.false_eq_true, if_false]
  by_cases hset : whence = SEEK_SET
  · have hexact : SeeksExactly v pos whence d (setPosition (0+pos) d).1.result (setPosition (0+pos) d).2 :=
      setPosition_exact (by simp) (by simp [base, hset]) rfl
    rw [if_pos hset]
    rwa [Int64.zero_add] at hexact
  · rw [if_neg hset]
    by_cases hcur : whence = SEEK_CUR
    · rw [if_pos hcur]
      exact setPosition_exact hpos (by rw [base, if_neg hset, if_pos hcur]) rfl
    · rw [if_neg hcur]
      by_cases hend : whence = SEEK_END
      · rw [if_pos hend]
        split
        · next e w hstat =>
          apply refused_exact
          · rw [base, if_neg hset, if_neg hcur, if_pos hend, hstat]
          · rfl
        · next size w hstat =>
          apply setPosition_exact (hsize size w hstat)
          · rw [base, if_neg hset, if_neg hcur, if_pos hend, hstat]
          · rfl
      · rw [if_neg hend]
        exact refused_exact (by rw [base, if_neg hset, if_neg hcur, if_neg hend]) rfl

theorem join32to64_toNat (x1 x2 : UInt32) : (join32to64 x1 x2).toNat = 2^32 * x1.toNat + x2.toNat := by
  have h1 := x1.toNat_lt
  have h2 := x2.toNat_lt
  have hshift : (x1.toUInt64 <<< 32).toNat = x1.toNat <<< 32 := by
    rw [UInt64.toNat_shiftLeft]
    simp only [UInt32.toNat_toUInt64, UInt64.reduceToNat, Nat.reduceMod, Nat.shiftLeft_eq]
    omega
  rw [join32to64, UInt64.toNat_or, hshift, UInt32.toNat_toUInt64, ← Nat.shiftLeft_add_eq_or_of_lt h2,
    Nat.shiftLeft_eq, Nat.mul_comm]

theorem split64to32_toNat (x : UInt64) :
    (split64to32 x).1.toNat = x.toNat / 2^32 ∧ (split64to32 x).2.toNat = x.toNat % 2^32 := by
  have hx := x.toNat_lt
  constructor
  · simp only [split64to32, UInt64.toNat_toUInt32, UInt64.toNat_shiftRight, UInt64.reduceToNat, Nat.reduceMod,
      Nat.shiftRight_eq_div_pow]
    omega
  · simp only [split64to32, UInt64.toNat_toUInt32, UInt64.toNat_and, UInt64.reduceToNat]
    rw [show 4294967295 = 2^32-1 by rfl, Nat.and_two_pow_sub_one_eq_mod]
    omega

/-- Splitting and joining lose nothing, whichever way round. -/
theorem join_split (x : UInt64) : join32to64 (split64to32 x).1 (split64to32 x).2 = x := by
  obtain ⟨hhigh, hlow⟩ := split64to32_toNat x
  apply UInt64.toNat_inj.mp
  rw [join32to64_toNat, hhigh, hlow]
  omega

theorem split_join (x1 x2 : UInt32) : split64to32 (join32to64 x1 x2) = (x1, x2) := by
  obtain ⟨hhigh, hlow⟩ := split64to32_toNat (join32to64 x1 x2)
  have h2 := x2.toNat_lt
  rw [join32to64_toNat] at hhigh hlow
  apply Prod.ext
  · apply UInt32.toNat_inj.mp
    rw [hhigh]
    show _ = x1.toNat
    omega
  · apply UInt32.toNat_inj.mp
    rw [hlow]
    show _ = x2.toNat
    omega

/-- What the caller of a system call has to find in its registers. -/
def Returned (r : Except Errno Value) (tf : Trapframe) : Prop :=
  match r with
  | .ok value => join32to64 tf.v0 tf.v1 = bits value ∧ tf.a3 = 0
  | .error e => tf.v0 = code e ∧ tf.a3 = 1

theorem finish_returned (r : Except Errno Value) (tf : Trapframe) :
    Returned r (finish (r.map (fun value => split64to32 (bits value))) tf) := by
  cases r with
  | error e => exact ⟨rfl, rfl⟩
  | ok value => exact ⟨join_split (bits value), rfl⟩

/-- `sys_lseek` moves the one descriptor. -/
theorem sysLseek_exact {fd : ℤ} {files : LocalTable ω} (hfile : localTableGet files fd = some ⟨-1, d⟩)
    (hseekable : v.isSeekable d.world = true) (hpos : 0 ≤ d.seekLocation.toInt)
    (hsize : ∀ size w, v.stat d.world = (.ok size, w) → 0 ≤ size.toInt) :
    ∃ r d', sysLseek v fd pos whence files = (r, update files fd.toNat (some ⟨-1, d'⟩)) ∧
      SeeksExactly v pos whence d r d' := by
  refine ⟨_, _, ?_, lseek_exact hseekable hpos hsize⟩
  simp [sysLseek, hfile]

/-- The whole call: a position that is split over two registers is sought
exactly, and the new one comes back split over two registers. -/
theorem syscallLseek_exact {m : UserMemory} {tf : Trapframe} {files : LocalTable ω} {buf : Buffer}
    (hfile : localTableGet files tf.a0.toInt32.toInt = some ⟨-1, d⟩) (hseekable : v.isSeekable d.world = true)
    (hpos : 0 ≤ d.seekLocation.toInt) (hsize : ∀ size w, v.stat d.world = (.ok size, w) → 0 ≤ size.toInt)
    (hregs : (tf.a2, tf.a3) = split64to32 pos.toUInt64)
    (hcopyin : copyin m (tf.sp + 16).toNat 4 (fun _ => 0) = (none, buf))
    (hwhence : whence = (UInt32.ofNat (word buf)).toInt32.toInt) :
    ∃ r d' tf', syscallLseek v m tf files =
        (tf', update files tf.a0.toInt32.toInt.toNat (some ⟨-1, d'⟩)) ∧
      SeeksExactly v pos whence d r d' ∧ Returned r tf' := by
  have hjoin : (join32to64 tf.a2 tf.a3).toInt64 = pos := by
    have h2 : tf.a2 = (split64to32 pos.toUInt64).1 := congrArg Prod.fst hregs
    have h3 : tf.a3 = (split64to32 pos.toUInt64).2 := congrArg Prod.snd hregs
    rw [h2, h3, join_split, Int64.toInt64_toUInt64]
  obtain ⟨r, d', hcall, hexact⟩ : ∃ r d', sysLseek v tf.a0.toInt32.toInt pos whence files =
      (r, update files tf.a0.toInt32.toInt.toNat (some ⟨-1, d'⟩)) ∧ SeeksExactly v pos whence d r d' :=
    sysLseek_exact hfile hseekable hpos hsize
  have hreturned := finish_returned r tf
  refine ⟨r, d', _, ?_, hexact, hreturned⟩
  simp only [syscallLseek, hcopyin, hjoin, ← hwhence, hcall]
  cases r <;> rfl

/-- A file of ten bytes that nothing has been read of. -/
def tenBytes : Vnode Unit where
  read := fun _ _ => (.error .eio, ())
  write := fun _ _ => (.error .eio, ())
  isSeekable := fun _ => true
  stat := fun _ => (.ok 10, ())

/-- Four bytes before the end, with the arguments where a caller puts them. -/
theorem tenBytes_seeks : ∃ r d' tf', syscallLseek tenBytes (fun va => some (if va = 4115 then 2 else 0))
        ⟨0, 0, 3, 0xffffffff, 0xfffffffc, 4096, 0⟩ (fun i => if i = 3 then some ⟨-1, ⟨2, 0, ()⟩⟩ else none) =
        (tf', update (fun i => if i = 3 then some ⟨-1, ⟨2, 0, ()⟩⟩ else none) 3 (some ⟨-1, d'⟩)) ∧
      SeeksExactly tenBytes (-4) SEEK_END ⟨2, 0, ()⟩ r d' ∧ Returned r tf' :=
  syscallLseek_exact rfl rfl (by decide) (fun size w h => by cases h; decide) (by decide) rfl rfl

end OS161.Lseek
