import Mathlib.Algebra.Group.Int.Defs
import Mathlib.Algebra.GroupWithZero.Nat
import Mathlib.Data.Nat.Notation
import Mathlib.Logic.Function.Basic

/-!
# Errors, stops and vnode references

Kernel calls report an error number; a call that follows a freed pointer or
fails an assertion does not return at all. The reference counts of vnodes are
kept as one function of the vnode's address, zero standing for an address
where no vnode is in memory. The answers of the file systems below the VFS
layer are supplied; the references that layer takes and gives back are not.
-/

set_option autoImplicit false

namespace OS161.Vfs

open Function

inductive Errno where
  | enomem | efault | enametoolong | einval | emproc | enproc | e2big | esrch | echild
  | enotdir | eisdir | enoent | eexist | enodev | enxio | emfile | enfile | ebadf | eio
  | espipe | enospc | efbig | ebusy | enoexec | enosys
  deriving DecidableEq, Repr

/-- Why a step of the kernel does not complete: it touches a freed object,
fails a `KASSERT`, indexes outside an array, or is not the thread's next step. -/
inductive Stop where
  | useAfterFree
  | panic
  | outOfBounds
  | blocked
  deriving DecidableEq, Repr

abbrev Refcounts := ℕ → ℕ

/-- A lookup hands back its vnode with one more reference, loading it if needed. -/
def acquired (vn : ℕ) (c : Refcounts) : Refcounts := update c vn (c vn+1)

def vnodeIncref (vn : ℕ) (c : Refcounts) : Except Stop Refcounts :=
  if c vn = 0 then .error .useAfterFree else .ok (update c vn (c vn+1))

/-- The last reference is passed to `VOP_RECLAIM`, after which the vnode is gone. -/
def vnodeDecref (vn : ℕ) (c : Refcounts) : Except Stop Refcounts :=
  if c vn = 0 then .error .panic else .ok (update c vn (c vn-1))

def vfsClose (vn : ℕ) (c : Refcounts) : Except Stop Refcounts := vnodeDecref vn c

theorem decref_acquired (vn : ℕ) (c : Refcounts) : vnodeDecref vn (acquired vn c) = .ok c := by
  simp [vnodeDecref, acquired]

theorem decref_acquired_acquired (dir vn : ℕ) (c : Refcounts) :
    vnodeDecref dir (acquired vn (acquired dir c)) = .ok (acquired vn c) := by
  by_cases h : dir = vn
  · subst h
    simp [vnodeDecref, acquired]
  · have hne : vn ≠ dir := fun e => h e.symm
    simp only [vnodeDecref, acquired, update_of_ne h, update_self, Nat.add_one_ne_zero,
      if_false, Nat.add_sub_cancel, update_of_ne hne]
    congr 1
    funext x
    by_cases hx : x = dir
    · subst hx
      simp [update_of_ne h]
    · by_cases hy : x = vn
      · subst hy
        simp [update_of_ne hx]
      · simp [update_of_ne hx, update_of_ne hy]

def O_RDONLY : ℕ := 0
def O_WRONLY : ℕ := 1
def O_RDWR : ℕ := 2
def O_CREAT : ℕ := 4
def O_EXCL : ℕ := 8
def O_TRUNC : ℕ := 16
def O_ACCMODE : ℕ := 3

/-- What the mounted file systems answer to the calls `vfs_open` makes. -/
structure FileSystems where
  lookparent : String → Except Errno (ℕ × String)
  creat : ℕ → String → Bool → Except Errno ℕ
  lookup : String → Except Errno ℕ
  eachopen : ℕ → ℕ → Option Errno
  truncate : ℕ → Option Errno

/-- The first half of `vfs_open`: find or create the vnode. -/
def openVnode (fs : FileSystems) (path : String) (openflags : ℕ) (c : Refcounts) :
    Except Stop (Except Errno ℕ × Refcounts) :=
  if openflags &&& O_CREAT ≠ 0 then
    match fs.lookparent path with
    | .error e => .ok (.error e, c)
    | .ok (dir, name) =>
      match fs.creat dir name (decide (openflags &&& O_EXCL ≠ 0)) with
      | .error e => do
        let c' ← vnodeDecref dir (acquired dir c)
        .ok (.error e, c')
      | .ok vn => do
        let c' ← vnodeDecref dir (acquired vn (acquired dir c))
        .ok (.ok vn, c')
  else
    match fs.lookup path with
    | .error e => .ok (.error e, c)
    | .ok vn => .ok (.ok vn, acquired vn c)

/-- The second half of `vfs_open`: `VOP_EACHOPEN` and the truncation, either
of which may refuse the vnode. -/
def openChecks (fs : FileSystems) (vn openflags : ℕ) : Option Errno :=
  match fs.eachopen vn openflags with
  | some e => some e
  | none =>
    if openflags &&& O_TRUNC ≠ 0 then
      if openflags &&& O_ACCMODE = O_RDONLY then some .einval else fs.truncate vn
    else none

def vfsOpen (fs : FileSystems) (path : String) (openflags : ℕ) (c : Refcounts) :
    Except Stop (Except Errno ℕ × Refcounts) :=
  if O_RDWR < openflags &&& O_ACCMODE then .ok (.error .einval, c)
  else do
    let (r, c') ← openVnode fs path openflags c
    match r with
    | .error e => .ok (.error e, c')
    | .ok vn =>
      match openChecks fs vn openflags with
      | none => .ok (.ok vn, c')
      | some e => do
        let c'' ← vnodeDecref vn c'
        .ok (.error e, c'')

theorem openVnode_spec (fs : FileSystems) (path : String) (flags : ℕ) (c : Refcounts) :
    (∃ e, openVnode fs path flags c = .ok (.error e, c)) ∨
    ∃ vn, openVnode fs path flags c = .ok (.ok vn, acquired vn c) := by
  unfold openVnode
  split
  · split
    · next e _ => exact .inl ⟨e, rfl⟩
    · next dir name _ =>
      split
      · next e _ => exact .inl ⟨e, by rw [decref_acquired]; rfl⟩
      · next vn _ => exact .inr ⟨vn, by rw [decref_acquired_acquired]; rfl⟩
  · split
    · next e _ => exact .inl ⟨e, rfl⟩
    · next vn _ => exact .inr ⟨vn, rfl⟩

/-- `vfs_open` keeps no reference when it fails and exactly one, on the vnode
it returns, when it succeeds. -/
theorem vfsOpen_spec (fs : FileSystems) (path : String) (flags : ℕ) (c : Refcounts) :
    (∃ e, vfsOpen fs path flags c = .ok (.error e, c)) ∨
    ∃ vn, vfsOpen fs path flags c = .ok (.ok vn, acquired vn c) := by
  unfold vfsOpen
  split
  · exact .inl ⟨_, rfl⟩
  · rcases openVnode_spec fs path flags c with ⟨e, h⟩ | ⟨vn, h⟩
    · exact .inl ⟨e, by rw [h]; rfl⟩
    · cases hc : openChecks fs vn flags with
      | none =>
        refine .inr ⟨vn, ?_⟩
        rw [h]
        simp [bind, Except.bind, hc]
      | some e =>
        refine .inl ⟨e, ?_⟩
        rw [h]
        simp [bind, Except.bind, hc, decref_acquired]

end OS161.Vfs
