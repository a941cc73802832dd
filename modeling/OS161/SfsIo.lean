import OS161.Pieces
import OS161.Sfs
import OS161.SharedDescriptor

/-!
# Moving data between a file and a process

`sfs_io` goes through the blocks of the file one after the other: a part of the
first, whole blocks, a part of the last. A part is read, changed and written
back; a whole block goes between the caller's memory and the disk at once. The
file grows at the end, by what has been moved until then.
-/

set_option autoImplicit false

namespace OS161.SfsIo

open Function OS161.Vfs OS161.CopyInOut OS161.Sfs
open OS161.SharedDescriptor (Rw)

def LHD_SECTSIZE : ℕ := 512

/-- A transfer. Its one block of the caller's memory is never shorter than `resid`. -/
structure Uio where
  base : ℕ
  offset : ℕ
  resid : ℕ
  rw : Rw

def Uio.advance (size : ℕ) (u : Uio) : Uio := ⟨u.base + size, u.offset + size, u.resid - size, u.rw⟩

abbrev IoResult := Except Stop (Option Errno × Uio × World)

/-- To go on unless there has been an error. -/
def andThen (r : IoResult) (next : Uio → World → IoResult) : IoResult :=
  match r with
  | .ok (none, u, w) => next u w
  | r => r

def uiomove (ptr : Buffer) (n : ℕ) (u : Uio) (m : UserMemory) : Option Errno × Buffer × Uio × UserMemory :=
  if n = 0 ∨ u.resid = 0 then (none, ptr, u, m)
  else match u.rw with
    | .read =>
      match copyout ptr u.base n m with
      | (some e, m') => (some e, ptr, u, m')
      | (none, m') => (none, ptr, u.advance n, m')
    | .write =>
      match copyin m u.base n ptr with
      | (some e, ptr') => (some e, ptr', u, m)
      | (none, ptr') => (none, ptr', u.advance n, m)

/-- Zeros, sixteen at a time. -/
def uiomovezeros (n : ℕ) (u : Uio) (m : UserMemory) : Option Errno × Uio × UserMemory :=
  if n = 0 then (none, u, m)
  else
    let amt := min 16 n
    match uiomove zeros amt u m with
    | (some e, _, u', m') => (some e, u', m')
    | (none, _, u', m') => uiomovezeros (n - amt) u' m'
termination_by n
decreasing_by omega

/-- The sectors of one request, through the buffer on the card. -/
def lhdSectors : (sector left : ℕ) → Uio → World → IoResult
  | _, 0, u, w => .ok (none, u, w)
  | sector, left+1, u, w =>
    match u.rw with
    | .read =>
      match uiomove (w.disk sector) LHD_SECTSIZE u w.user with
      | (some e, _, u', m) => .ok (some e, u', { w with user := m })
      | (none, _, u', m) => lhdSectors (sector+1) left u' { w with user := m }
    | .write =>
      match uiomove zeros LHD_SECTSIZE u w.user with
      | (some e, _, u', m) => .ok (some e, u', { w with user := m })
      | (none, buf, u', m) => lhdSectors (sector+1) left u' { w with user := m, disk := update w.disk sector buf }

-- a request that the device refuses is a panic in `sfs_rwblock`
def lhdIo (u : Uio) (w : World) : IoResult :=
  let sector := u.offset / LHD_SECTSIZE % 2^32
  let len := u.resid / LHD_SECTSIZE
  if u.offset % LHD_SECTSIZE ≠ 0 ∨ u.resid % LHD_SECTSIZE ≠ 0 then .error .panic
  else if w.dBlocks < (sector + len) % 2^32 then .error .panic
  else lhdSectors sector len u w

/-- The block of the file that a transfer is at, which has 32 bits. -/
def fileblock (u : Uio) : ℕ := u.offset / SFS_BLOCKSIZE % 2^32

/-- What a block of the file holds; without a block, zeros. -/
def loadBlock (rw : Rw) (diskblock : ℕ) (w : World) : Except Stop Block :=
  if diskblock = 0 then if rw = .read then .ok zeros else .error .panic
  else sfsReadblock diskblock w

def sfsPartialio (skipstart len : ℕ) (u : Uio) (w : World) : IoResult :=
  if SFS_BLOCKSIZE < skipstart + len then .error .panic
  else match sfsBmap (fileblock u) (u.rw = .write) w with
    | .error stop => .error stop
    | .ok (.error e, w) => .ok (some e, u, w)
    | .ok (.ok diskblock, w) =>
      match loadBlock u.rw diskblock w with
      | .error stop => .error stop
      | .ok iobuf =>
        match uiomove (fun i => iobuf (skipstart + i)) len u w.user with
        | (some e, _, u', m) => .ok (some e, u', { w with user := m })
        | (none, ptr, u', m) =>
          let w' := { w with user := m }
          if u.rw = .write then
            match sfsWriteblock diskblock (fun i => if skipstart ≤ i then ptr (i - skipstart) else iobuf i) w' with
            | .error stop => .error stop
            | .ok w'' => .ok (none, u', w'')
          else .ok (none, u', w')

-- `diskoff` is computed in 32 bits
def sfsBlockio (u : Uio) (w : World) : IoResult :=
  match sfsBmap (fileblock u) (u.rw = .write) w with
  | .error stop => .error stop
  | .ok (.error e, w) => .ok (some e, u, w)
  | .ok (.ok diskblock, w) =>
    if diskblock = 0 then
      if u.rw = .read then
        let (e, u', m) := uiomovezeros SFS_BLOCKSIZE u w.user
        .ok (e, u', { w with user := m })
      else .error .panic
    else if u.resid < SFS_BLOCKSIZE then .error .panic
    else
      let diskoff := diskblock * SFS_BLOCKSIZE % 2^32
      match lhdIo { u with offset := diskoff, resid := SFS_BLOCKSIZE } w with
      | .error stop => .error stop
      | .ok (e, u', w') =>
        .ok (e, { u' with offset := u'.offset - diskoff + u.offset,
                          resid := u'.resid + u.resid - SFS_BLOCKSIZE }, w')

/-- The loop over the whole blocks. -/
def blockLoop : (nblocks : ℕ) → Uio → World → IoResult
  | 0, u, w => .ok (none, u, w)
  | nblocks+1, u, w => andThen (sfsBlockio u w) (blockLoop nblocks)

/-- `sfs_io` once the position is the start of a block. -/
def transferAligned (u : Uio) (w : World) : IoResult :=
  if u.resid = 0 then .ok (none, u, w)
  else if u.offset % SFS_BLOCKSIZE ≠ 0 then .error .panic
  else andThen (blockLoop (u.resid / SFS_BLOCKSIZE) u w) fun u w =>
    if SFS_BLOCKSIZE ≤ u.resid then .error .panic
    else if 0 < u.resid then sfsPartialio 0 u.resid u w
    else .ok (none, u, w)

/-- `sfs_io` up to the label `out`. -/
def transfer (u : Uio) (w : World) : IoResult :=
  let blkoff := u.offset % SFS_BLOCKSIZE
  andThen (if blkoff ≠ 0 then sfsPartialio blkoff (min (SFS_BLOCKSIZE - blkoff) u.resid) u w else .ok (none, u, w))
    transferAligned

def sfsIo (u : Uio) (w : World) : IoResult :=
  let origresid := u.resid
  if u.rw = .read ∧ w.size ≤ u.offset then .ok (none, u, w)
  else
    let extraresid := if u.rw = .read then u.offset + u.resid - w.size else 0
    match transfer { u with resid := u.resid - extraresid } w with
    | .error stop => .error stop
    | .ok (e, u', w') =>
      let grows := u'.resid ≠ origresid ∧ u.rw = .write ∧ w'.size < u'.offset
      .ok (e, { u' with resid := u'.resid + extraresid },
        if grows then { w' with size := u'.offset % 2^32 } else w')

/-- A position is never negative. -/
def fromUio (u : SharedDescriptor.Uio) : Uio := ⟨u.base, u.offset.toInt.toNat, u.resid.toNat, u.rw⟩

/-- `sfs_read` and `sfs_write`. After a panic there is no answer that anyone sees. -/
def sfsRw (u : SharedDescriptor.Uio) : Except Stop World → Except Errno UInt32 × Except Stop World
  | .error stop => (.error .eio, .error stop)
  | .ok w =>
    match sfsIo (fromUio u) w with
    | .error stop => (.error .eio, .error stop)
    | .ok (some e, _, w') => (.error e, .ok w')
    | .ok (none, u', w') => (.ok (UInt32.ofNat u'.resid), .ok w')

def sfsStat : Except Stop World → Except Errno Int64 × Except Stop World
  | .error stop => (.error .eio, .error stop)
  | .ok w => (.ok (Int64.ofNat w.size), .ok w)

/-- The vnode of a file, for the calls that go through a descriptor. -/
def sfsVnode : SharedDescriptor.Vnode (Except Stop World) where
  read := sfsRw
  write := sfsRw
  isSeekable := fun _ => true
  stat := sfsStat

end OS161.SfsIo
