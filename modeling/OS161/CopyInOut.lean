import Mathlib.Tactic.SplitIfs
import OS161.Vfs

/-!
# Copying between the kernel and a process

The functions of `copyinout.c` check where the user's block lies and then copy
it as if it were the kernel's own. A byte that cannot be read or written ends
the copy; what has been copied by then stays.
-/

set_option autoImplicit false

namespace OS161.CopyInOut

open Function OS161.Vfs

def USERSPACETOP : ℕ := 0x80000000

/-- What a process has at each address; an access to `none` fails. -/
abbrev UserMemory := ℕ → Option UInt8

/-- The kernel's memory from the start of a buffer on. -/
abbrev Buffer := ℕ → UInt8

/-- The last byte of a block. -/
def blockTop (userptr len : ℕ) : ℕ := (2^32 - 1 + userptr + len) % 2^32

/-- The number of bytes that may be copied, if any may. -/
def copycheck (userptr len : ℕ) : Option ℕ :=
  if blockTop userptr len < userptr then none
  else if USERSPACETOP ≤ userptr then none
  else if USERSPACETOP ≤ blockTop userptr len then some (USERSPACETOP - userptr)
  else some len

/-- `memcpy` from byte `i` on, with as many bytes left; `false` if it runs into a
fault. A byte is read with `src` and put where it goes if it can be written. -/
def memcpy {β : Type} (src : ℕ → Option UInt8) (writable : ℕ → Bool) (put : ℕ → UInt8 → β → β) :
    (i left : ℕ) → β → Bool × β
  | _, 0, dest => (true, dest)
  | i, left+1, dest =>
    match src i with
    | none => (false, dest)
    | some b => if writable i then memcpy src writable put (i+1) left (put i b dest) else (false, dest)

/-- What a function leaves: its error, the length that it has stored, the destination. -/
structure Copied (β : Type) where
  err : Option Errno
  gotlen : Option ℕ
  dest : β

/-- The error of `copystr` when no terminator has been found. -/
def copystrError (maxlen stoplen : ℕ) : Errno := if stoplen < maxlen then .efault else .enametoolong

/-- `copystr` from byte `i` on, where `e` is the error at the end. -/
def copystr {β : Type} (src : ℕ → Option UInt8) (writable : ℕ → Bool) (put : ℕ → UInt8 → β → β) (e : Errno) :
    (i left : ℕ) → β → Copied β
  | _, 0, dest => ⟨some e, none, dest⟩
  | i, left+1, dest =>
    match src i with
    | none => ⟨some .efault, none, dest⟩
    | some b =>
      if writable i then
        if b = 0 then ⟨none, some (i+1), put i b dest⟩
        else copystr src writable put e (i+1) left (put i b dest)
      else ⟨some .efault, none, dest⟩

/-- The common part of `copyin` and `copyout`: a block is copied whole or not at all. -/
def copyBlock {β : Type} (userptr len : ℕ) (copy : ℕ → Bool × β) (dest : β) : Option Errno × β :=
  match copycheck userptr len with
  | none => (some .efault, dest)
  | some stoplen =>
    if stoplen ≠ len then (some .efault, dest)
    else match copy len with
      | (true, dest') => (none, dest')
      | (false, dest') => (some .efault, dest')

/-- The common part of `copyinstr` and `copyoutstr`. -/
def copyString {β : Type} (userptr len : ℕ) (copy : Errno → ℕ → Copied β) (dest : β) : Copied β :=
  match copycheck userptr len with
  | none => ⟨some .efault, none, dest⟩
  | some stoplen => copy (copystrError len stoplen) (min len stoplen)

/-- Into a buffer of the kernel. -/
def putIn (i : ℕ) (b : UInt8) (dest : Buffer) : Buffer := update dest i b

/-- To a process, from an address on. -/
def putOut (userdest i : ℕ) (b : UInt8) (m : UserMemory) : UserMemory := update m (userdest+i) (some b)

def copyin (m : UserMemory) (usersrc len : ℕ) (dest : Buffer) : Option Errno × Buffer :=
  copyBlock usersrc len (fun n => memcpy (fun i => m (usersrc+i)) (fun _ => true) putIn 0 n dest) dest

def copyout (src : Buffer) (userdest len : ℕ) (m : UserMemory) : Option Errno × UserMemory :=
  copyBlock userdest len
    (fun n => memcpy (fun i => some (src i)) (fun i => (m (userdest+i)).isSome) (putOut userdest) 0 n m) m

def copyinstr (m : UserMemory) (usersrc len : ℕ) (dest : Buffer) : Copied Buffer :=
  copyString usersrc len
    (fun e n => copystr (fun i => m (usersrc+i)) (fun _ => true) putIn e 0 n dest) dest

def copyoutstr (src : Buffer) (userdest len : ℕ) (m : UserMemory) : Copied UserMemory :=
  copyString userdest len
    (fun e n => copystr (fun i => some (src i)) (fun i => (m (userdest+i)).isSome) (putOut userdest) e 0 n m) m

/-- A pointer in a buffer; the machine is big-endian. -/
def word (b : Buffer) : ℕ :=
  2^24 * (b 0).toNat + 2^16 * (b 1).toNat + 2^8 * (b 2).toNat + (b 3).toNat

/-- A pointer as bytes of a buffer. -/
def bytes (w : ℕ) : Buffer := fun i => UInt8.ofNat (w / 2^(24 - 8*i))

/-- The string that starts in a buffer, as far as it is looked at. -/
def cstring : ℕ → Buffer → List UInt8
  | 0, _ => []
  | n+1, b => if b 0 = 0 then [] else b 0 :: cstring n (fun i => b (i+1))

variable {m : UserMemory} {p len : ℕ}

/-- No block above the user's part of memory passes the check. -/
theorem copycheck_above (h : USERSPACETOP ≤ p) : copycheck p len = none := by
  simp only [copycheck, if_pos h, ite_self]

theorem copyoutstr_above (src : Buffer) (h : USERSPACETOP ≤ p) :
    copyoutstr src p len m = ⟨some .efault, none, m⟩ := by
  unfold copyoutstr copyString
  rw [copycheck_above h]

/-- The check is a statement about the whole block, without any wrap around. -/
theorem copycheck_eq (hp : p < 2^32) (hlen : 1 ≤ len) (hlen' : len < 2^32) : copycheck p len =
    if USERSPACETOP ≤ p ∨ 2^32 < p+len then none
    else if p+len ≤ USERSPACETOP then some len else some (USERSPACETOP-p) := by
  have htop : blockTop p len = if p+len ≤ 2^32 then p+len-1 else p+len-1-2^32 := by
    unfold blockTop
    split <;> omega
  unfold copycheck
  rw [htop]
  unfold USERSPACETOP
  split_ifs <;> first | rfl | omega

end OS161.CopyInOut
