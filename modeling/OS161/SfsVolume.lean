import OS161.References
import OS161.SfsDir

/-!
# A mounted volume and its operations

A volume in use has its bitmap and a table of vnodes in memory, one for each
inode that somebody uses. The operations run under `vfs_biglock`; what they do
while they have it is one function here. An operation that gives back a vnode
does it at its end, and says so in its outcome. The device does not fail; whether
memory is left is an input.
-/

set_option autoImplicit false

namespace OS161.SfsVolume

open Function OS161.Vfs OS161.CopyInOut OS161.Sfs OS161.SfsIo OS161.SfsTruncate OS161.SfsDir OS161.References
open OS161.Sfsck (SFS_ROOTDIR_INO SFS_TYPE_FILE SFS_TYPE_DIR SFS_NOINO Dinode mod_half_lt)

/-- The vnodes are numbered; the number of a `Counted` is `sv_ino`, and `core` and
`dirty` are `sv_i` and `sv_dirty`. -/
structure Volume where
  freemap : ℕ → Bool
  freemapdirty : Bool
  nbits : ℕ
  nblocks : ℕ
  dBlocks : ℕ
  disk : ℕ → Block
  vnodes : List ℕ
  vnode : ℕ → Counted
  nextVnode : ℕ
  core : ℕ → Dinode
  dirty : ℕ → Bool

def Volume.ino (s : Volume) (v : ℕ) : ℕ := (s.vnode v).number

/-- The file that an inode stands for. -/
def Volume.file (s : Volume) (d : Dinode) (m : UserMemory) : World where
  size := d.size
  direct := d.direct
  indirect := d.indirect
  freemap := s.freemap
  nbits := s.nbits
  nblocks := s.nblocks
  disk := s.disk
  dBlocks := s.dBlocks
  user := m

def noMemory : UserMemory := fun _ => none

def Volume.view (s : Volume) (v : ℕ) : World := s.file (s.core v) noMemory

/-- The volume without a file. -/
def Volume.bare (s : Volume) : World := s.file (.ofBlock zeros) noMemory

/-- What an operation leaves of the bitmap, which is marked dirty with each change, and the disk. -/
def Volume.store (w : World) (s : Volume) : Volume := { s with
  freemap := w.freemap
  freemapdirty := s.freemapdirty || (List.range s.nbits).any fun b => w.freemap b != s.freemap b
  disk := w.disk }

/-- The inode with the size and the blocks of a file. -/
def ofFile (w : World) (d : Dinode) : Dinode := (d.setSize w.size).setPointers w.direct w.indirect

/-- What every function that changes an inode marks it dirty for. -/
def differs (d : Dinode) (w : World) : Bool :=
  d.size != w.size || d.indirect != w.indirect || (List.range SFS_NDIRECT).any fun c => d.direct c != w.direct c

/-- A file after an operation on it. -/
def Volume.keep (v : ℕ) (w : World) (s : Volume) : Volume := { s.store w with
  core := update s.core v (ofFile w (s.core v))
  dirty := update s.dirty v (s.dirty v || differs (s.core v) w) }

def Volume.markDirty (v : ℕ) (s : Volume) : Volume := { s with dirty := update s.dirty v true }

def setLinkcount (n : ℕ) (d : Dinode) : Dinode := { d with linkcount := n % 2^16, linkcount_lt := mod_half_lt _ }

def setType (type : ℕ) (d : Dinode) : Dinode := { d with type := type % 2^16, type_lt := mod_half_lt _ }

/-- Another link count, with the inode marked dirty. -/
def Volume.relink (v n : ℕ) (s : Volume) : Volume :=
  { s with core := update s.core v (setLinkcount n (s.core v)) }.markDirty v

/-- An operation on the file of a vnode. -/
def onFile {α : Type} (v : ℕ) (f : World → Except Stop (α × World)) (s : Volume) : Except Stop (α × Volume) :=
  match f (s.view v) with
  | .error stop => .error stop
  | .ok (a, w) => .ok (a, s.keep v w)

/-- Which allocations succeed: of a `struct sfs_vnode`, and in the table. -/
structure Memory where
  vnode : Bool
  table : Bool

/-- The loop of `sfs_loadvnode` over the table. -/
def findVnode (ino : ℕ) : List ℕ → Volume → Except Stop (Option ℕ)
  | [], _ => .ok none
  | v::vs, s =>
    if (s.vnode v).live = false then .error .useAfterFree
    else match sfsBused (s.ino v) s.bare with
      | .error stop => .error stop
      | .ok used =>
        if used = false then .error .panic
        else if s.ino v = ino then .ok (some v)
        else findVnode ino vs s

def vopIncref (v : ℕ) (s : Volume) : Volume :=
  { s with vnode := update s.vnode v { s.vnode v with refcount := (s.vnode v).refcount+1 } }

/-- A new vnode at the end of the table. -/
def addVnode (ino : ℕ) (d : Dinode) (dirty : Bool) (s : Volume) : Volume := { s with
  vnodes := s.vnodes ++ [s.nextVnode]
  vnode := update s.vnode s.nextVnode ⟨true, ino, 1⟩
  nextVnode := s.nextVnode+1
  core := update s.core s.nextVnode d
  dirty := update s.dirty s.nextVnode dirty }

def sfsLoadvnode (ino forcetype : ℕ) (mem : Memory) (s : Volume) : Except Stop (Except Errno ℕ × Volume) :=
  match findVnode ino s.vnodes s with
  | .error stop => .error stop
  | .ok (some v) => if forcetype ≠ SFS_TYPE_INVAL then .error .panic else .ok (.ok v, vopIncref v s)
  | .ok none =>
    if mem.vnode = false then .ok (.error .enomem, s)
    else match sfsBused ino s.bare with
      | .error stop => .error stop
      | .ok used =>
        if used = false then .error .panic
        else match sfsReadblock ino s.bare with
          | .error stop => .error stop
          | .ok block =>
            let svi := Dinode.ofBlock block
            if forcetype ≠ SFS_TYPE_INVAL ∧ svi.type ≠ SFS_TYPE_INVAL then .error .panic
            else
              let svi := if forcetype ≠ SFS_TYPE_INVAL then setType forcetype svi else svi
              if svi.type ≠ SFS_TYPE_FILE ∧ svi.type ≠ SFS_TYPE_DIR then .error .panic
              else if mem.table = false then .ok (.error .enomem, s)
              else .ok (.ok s.nextVnode, addVnode ino svi (forcetype ≠ SFS_TYPE_INVAL) s)

def sfsMakeobj (type : ℕ) (mem : Memory) (s : Volume) : Except Stop (Except Errno ℕ × Volume) :=
  match sfsBalloc s.bare with
  | .error stop => .error stop
  | .ok (.error e, w) => .ok (.error e, s.store w)
  | .ok (.ok ino, w) =>
    match sfsLoadvnode ino type mem (s.store w) with
    | .error stop => .error stop
    | .ok (.error e, s) =>
      match sfsBfree ino s.bare with
      | .error stop => .error stop
      | .ok w => .ok (.error e, s.store w)
    | .ok (.ok v, s) => .ok (.ok v, s)

/-- The vnode of the name and the slot of its entry. -/
def sfsLookonce (v : ℕ) (name : Name) (mem : Memory) (s : Volume) : Except Stop (Except Errno (ℕ × ℕ) × Volume) :=
  match onFile v (sfsDirFindname (s.core v).type name) s with
  | .error stop => .error stop
  | .ok (.error e, s) => .ok (.error e, s)
  | .ok (.ok f, s) =>
    match f.entry with
    | none => .ok (.error .enoent, s)
    | some (slot, ino) =>
      match sfsLoadvnode ino SFS_TYPE_INVAL mem s with
      | .error stop => .error stop
      | .ok (.error e, s) => .ok (.error e, s)
      | .ok (.ok g, s) => if (s.core g).linkcount = 0 then .error .panic else .ok (.ok (g, slot), s)

/-- What a call returns: an error, or the vnode it stores, if any. -/
abbrev Result := Except Errno (Option ℕ)

/-- The end of an operation: the vnode that it still gives back, and its result. -/
structure Outcome where
  drop : Option ℕ
  result : Result

abbrev Body := Except Stop (Outcome × Volume)

def returns (r : Result) (s : Volume) : Body := .ok (⟨none, r⟩, s)

def drops (v : ℕ) (r : Result) (s : Volume) : Body := .ok (⟨some v, r⟩, s)

def sfsGetroot (mem : Memory) (s : Volume) : Body :=
  match sfsLoadvnode SFS_ROOTDIR_INO SFS_TYPE_INVAL mem s with
  | .error stop => .error stop
  | .ok (.error e, s) => returns (.error e) s
  | .ok (.ok v, s) => if (s.core v).type ≠ SFS_TYPE_DIR then returns (.error .einval) s else returns (.ok (some v)) s

def sfsCreat (v : ℕ) (name : Name) (excl : Bool) (mem : Memory) (s : Volume) : Body :=
  match onFile v (sfsDirFindname (s.core v).type name) s with
  | .error stop => .error stop
  | .ok (.error e, s) => returns (.error e) s
  | .ok (.ok f, s) =>
    match f.entry with
    | some (_, ino) =>
      if excl then returns (.error .eexist) s
      else match sfsLoadvnode ino SFS_TYPE_INVAL mem s with
        | .error stop => .error stop
        | .ok (.error e, s) => returns (.error e) s
        | .ok (.ok g, s) => returns (.ok (some g)) s
    | none =>
      match sfsMakeobj SFS_TYPE_FILE mem s with
      | .error stop => .error stop
      | .ok (.error e, s) => returns (.error e) s
      | .ok (.ok newguy, s) =>
        match onFile v (sfsDirLink (s.core v).type name (s.ino newguy)) s with
        | .error stop => .error stop
        | .ok (.error e, s) => drops newguy (.error e) s
        | .ok (.ok _, s) => returns (.ok (some newguy)) (s.relink newguy ((s.core newguy).linkcount + 1))

def sfsLink (v : ℕ) (name : Name) (f : ℕ) (s : Volume) : Body :=
  if (s.core f).type = SFS_TYPE_DIR then returns (.error .einval) s
  else match onFile v (sfsDirLink (s.core v).type name (s.ino f)) s with
    | .error stop => .error stop
    | .ok (.error e, s) => returns (.error e) s
    | .ok (.ok _, s) => returns (.ok none) (s.relink f ((s.core f).linkcount + 1))

def sfsRemove (v : ℕ) (name : Name) (mem : Memory) (s : Volume) : Body :=
  match sfsLookonce v name mem s with
  | .error stop => .error stop
  | .ok (.error e, s) => returns (.error e) s
  | .ok (.ok (victim, slot), s) =>
    match onFile v (sfsDirUnlink slot) s with
    | .error stop => .error stop
    | .ok (.error e, s) => drops victim (.error e) s
    | .ok (.ok (), s) =>
      if (s.core victim).linkcount = 0 then .error .panic
      else drops victim (.ok none) (s.relink victim ((s.core victim).linkcount - 1))

-- after an error the link count is put back without a mark
def sfsRename (v : ℕ) (n₁ n₂ : Name) (mem : Memory) (s : Volume) : Body :=
  if s.ino v ≠ SFS_ROOTDIR_INO then .error .panic
  else match sfsLookonce v n₁ mem s with
    | .error stop => .error stop
    | .ok (.error e, s) => returns (.error e) s
    | .ok (.ok (g, slot₁), s) =>
      if (s.core g).type ≠ SFS_TYPE_FILE then .error .panic
      else match onFile v (sfsDirLink (s.core v).type n₂ (s.ino g)) s with
        | .error stop => .error stop
        | .ok (.error e, s) => drops g (.error e) s
        | .ok (.ok slot₂, s) =>
          let s := s.relink g ((s.core g).linkcount + 1)
          match onFile v (sfsDirUnlink slot₁) s with
          | .error stop => .error stop
          | .ok (.ok (), s) =>
            if (s.core g).linkcount = 0 then .error .panic
            else drops g (.ok none) (s.relink g ((s.core g).linkcount - 1))
          | .ok (.error e, s) =>
            match onFile v (sfsDirUnlink slot₂) s with
            | .error stop => .error stop
            | .ok (.error _, _) => .error .panic
            | .ok (.ok (), s) =>
              drops g (.error e) { s with core := update s.core g (setLinkcount ((s.core g).linkcount - 1) (s.core g)) }

def sfsLookup (v : ℕ) (path : Name) (mem : Memory) (s : Volume) : Body :=
  if (s.core v).type ≠ SFS_TYPE_DIR then returns (.error .enotdir) s
  else match sfsLookonce v path mem s with
    | .error stop => .error stop
    | .ok (.error e, s) => returns (.error e) s
    | .ok (.ok (g, _), s) => returns (.ok (some g)) s

def sfsLookparent (v : ℕ) (path : Name) (buflen : ℕ) (s : Volume) : Body :=
  if (s.core v).type ≠ SFS_TYPE_DIR then returns (.error .enotdir) s
  else if buflen < path.val.length + 1 then returns (.error .enametoolong) s
  else returns (.ok (some v)) (vopIncref v s)

/-- `sfs_read` and `sfs_write`, with the memory of the process. -/
def sfsRw (v : ℕ) (u : Uio) (m : UserMemory) (s : Volume) : Body :=
  match sfsIo u (s.file (s.core v) m) with
  | .error stop => .error stop
  | .ok (some e, _, w) => returns (.error e) (s.keep v w)
  | .ok (none, _, w) => returns (.ok none) (s.keep v w)

def sfsTruncate (v len : ℕ) (s : Volume) : Except Stop Volume :=
  match sfsItrunc len (s.view v) with
  | .error stop => .error stop
  | .ok w => .ok ((s.keep v w).markDirty v)

def sfsSyncInode (v : ℕ) (s : Volume) : Except Stop Volume :=
  if s.dirty v then
    match sfsWriteblock (s.ino v) (s.core v).toBlock s.bare with
    | .error stop => .error stop
    | .ok w => .ok { s.store w with dirty := update s.dirty v false }
  else .ok s

/-- The end of `sfs_reclaim`, once the vnode is known to have one reference only. -/
def sfsErase (v : ℕ) (s : Volume) : Except Stop Volume :=
  match if (s.core v).linkcount = 0 then sfsTruncate v 0 s else .ok s with
  | .error stop => .error stop
  | .ok s =>
    match sfsSyncInode v s with
    | .error stop => .error stop
    | .ok s =>
      match if (s.core v).linkcount = 0 then sfsBfree (s.ino v) s.bare else .ok s.bare with
      | .error stop => .error stop
      | .ok w =>
        if v ∉ s.vnodes then .error .panic
        else if (s.vnode v).refcount ≠ 1 then .error .panic
        else .ok { s.store w with
          vnodes := s.vnodes.erase v
          vnode := update s.vnode v { s.vnode v with live := false } }

end OS161.SfsVolume
