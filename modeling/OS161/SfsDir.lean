import OS161.SfsOwnership
import OS161.SfsckDirectories

/-!
# The root directory as a file

A directory is a file of entries of 64 bytes each, of which eight fit in a block.
An entry whose inode number is zero is free and used again before the directory
grows.
-/

set_option autoImplicit false

namespace OS161.SfsDir

open Function OS161.Vfs OS161.CopyInOut OS161.Sfs OS161.SfsTruncate OS161.SfsOwnership
open OS161.Sfsck (SFS_NOINO SFS_TYPE_DIR)
open OS161.SfsckDirectories (SFS_NAMELEN direntrySize Direntry emptyEntry ofDirentries)
open OS161.SharedDescriptor (Rw)

def SFS_TYPE_INVAL : ℕ := 0

/-- A string, without the zero that ends it. -/
abbrev Name := { s : List UInt8 // 0 ∉ s }

theorem cstring_noNul (n : ℕ) (b : Buffer) : 0 ∉ cstring n b := by
  induction n generalizing b with
  | zero => simp [cstring]
  | succ n ih =>
    unfold cstring
    split
    · simp
    · next hne =>
      rw [List.mem_cons, not_or]
      exact ⟨fun h => hne h.symm, ih _⟩

/-- The name, which is made to end with the last byte of its field. -/
def nameOf (sd : Direntry) : Name :=
  ⟨({ sd with name := update sd.name (SFS_NAMELEN-1) 0 } : Direntry).string, cstring_noNul _ _⟩

/-- An entry of zeros with a number and, as `strcpy` leaves it, a name. -/
def named (ino : ℕ) (name : Name) : Direntry := (emptyEntry.setIno ino).setName name.val

/-- The bytes of an entry, and the other way round. -/
def ofBytes (data : Buffer) : Direntry := .ofBlock data 0

def toBytes (sd : Direntry) : Buffer := ofDirentries fun _ => sd

/-- Part of a block of the file, from memory or into memory. -/
def sfsMetaio (rw : Rw) (actualpos : ℕ) (data : Buffer) (len : ℕ) (w : World) :
    Except Stop (Except Errno Buffer × World) :=
  let vnblock := actualpos / SFS_BLOCKSIZE % 2^32
  let blockoffset := actualpos % SFS_BLOCKSIZE
  match sfsBmap vnblock (rw = .write) w with
  | .error stop => .error stop
  | .ok (.error e, w) => .ok (.error e, w)
  | .ok (.ok diskblock, w) =>
    if diskblock = 0 then
      if rw = .read then .ok (.ok fun i => if i < len then 0 else data i, w) else .error .panic
    else match sfsReadblock diskblock w with
      | .error stop => .error stop
      | .ok metaiobuf =>
        match rw with
        | .read => .ok (.ok fun i => if i < len then metaiobuf (blockoffset + i) else data i, w)
        | .write =>
          match sfsWriteblock diskblock
            (fun i => if blockoffset ≤ i ∧ i < blockoffset + len then data (i - blockoffset) else metaiobuf i) w with
          | .error stop => .error stop
          | .ok w =>
            let endpos := actualpos + len
            .ok (.ok data, if w.size < endpos then { w with size := endpos % 2^32 } else w)

-- the position is computed in 32 bits
def slotPosition (slot : ℕ) : ℕ := slot * direntrySize % 2^32

def sfsReaddir (slot : ℕ) (w : World) : Except Stop (Except Errno Direntry × World) :=
  match sfsMetaio .read (slotPosition slot) (fun _ => 0) direntrySize w with
  | .error stop => .error stop
  | .ok (.error e, w) => .ok (.error e, w)
  | .ok (.ok data, w) => .ok (.ok (ofBytes data), w)

def sfsWritedir (slot : ℕ) (sd : Direntry) (w : World) : Except Stop (Except Errno Unit × World) :=
  match sfsMetaio .write (slotPosition slot) (toBytes sd) direntrySize w with
  | .error stop => .error stop
  | .ok (.error e, w) => .ok (.error e, w)
  | .ok (.ok _, w) => .ok (.ok (), w)

def sfsDirNentries (type : ℕ) (w : World) : Except Stop ℕ :=
  if type ≠ SFS_TYPE_DIR then .error .panic
  else if w.size % direntrySize ≠ 0 then .error .panic
  else .ok (w.size / direntrySize)

/-- What a search has found: the slot and the inode of the name, and a free slot. -/
structure Found where
  entry : Option (ℕ × ℕ)
  emptyslot : Option ℕ

def findLoop (name : Name) : (left i : ℕ) → Found → World → Except Stop (Except Errno Found × World)
  | 0, _, f, w => .ok (.ok f, w)
  | left+1, i, f, w =>
    match sfsReaddir i w with
    | .error stop => .error stop
    | .ok (.error e, w) => .ok (.error e, w)
    | .ok (.ok tsd, w) =>
      if tsd.ino = SFS_NOINO then findLoop name left (i+1) { f with emptyslot := some i } w
      else if nameOf tsd = name then
        if f.entry.isSome then .error .panic
        else findLoop name left (i+1) { f with entry := some (i, tsd.ino) } w
      else findLoop name left (i+1) f w

/-- The result is `ENOENT` where no entry is found. -/
def sfsDirFindname (type : ℕ) (name : Name) (w : World) : Except Stop (Except Errno Found × World) :=
  match sfsDirNentries type w with
  | .error stop => .error stop
  | .ok nentries => findLoop name nentries 0 ⟨none, none⟩ w

/-- The slot is handed back. -/
def sfsDirLink (type : ℕ) (name : Name) (ino : ℕ) (w : World) : Except Stop (Except Errno ℕ × World) :=
  match sfsDirFindname type name w with
  | .error stop => .error stop
  | .ok (.error e, w) => .ok (.error e, w)
  | .ok (.ok f, w) =>
    if f.entry.isSome then .ok (.error .eexist, w)
    else if SFS_NAMELEN < name.val.length + 1 then .ok (.error .enametoolong, w)
    else match sfsDirNentries type w with
      | .error stop => .error stop
      | .ok nentries =>
        let slot := f.emptyslot.getD nentries
        match sfsWritedir slot (named ino name) w with
        | .error stop => .error stop
        | .ok (.error e, w) => .ok (.error e, w)
        | .ok (.ok (), w) => .ok (.ok slot, w)

def sfsDirUnlink (slot : ℕ) (w : World) : Except Stop (Except Errno Unit × World) := sfsWritedir slot emptyEntry w

/-! What the directory lists. -/

def slots (w : World) : ℕ := w.size / direntrySize

def entryAt (w : World) (i : ℕ) : Direntry := ofBytes fun j => byteAt w (direntrySize*i + j)

/-- The name and the inode number in a slot, unless it is free. -/
def entries (w : World) (i : ℕ) : Option (Name × ℕ) :=
  if i < slots w ∧ (entryAt w i).ino ≠ SFS_NOINO then some (nameOf (entryAt w i), (entryAt w i).ino) else none

/-- The entries are whole, within the largest file, and of different names. -/
structure Listing (w : World) : Prop where
  whole : w.size % direntrySize = 0
  fits : w.size ≤ SFS_BLOCKSIZE * maxBlocks
  distinct : ∀ i j n a b, entries w i = some (n, a) → entries w j = some (n, b) → i = j

variable {w w' : World} {c d e i j k n ino len pos : ℕ} {name : Name} {sd : Direntry} {data : Buffer}

theorem cstring_fits {s : List UInt8} (hs : 0 ∉ s) (h : s.length < n) {b : Buffer} (hb : ∀ i < s.length, b i = s.getD i 0)
    (hend : b s.length = 0) : cstring n b = s := by
  induction s generalizing n b with
  | nil =>
    cases n with
    | zero => rfl
    | succ n => exact if_pos hend
  | cons c s ih =>
    rw [List.mem_cons, not_or] at hs
    cases n with
    | zero => simp at h
    | succ n =>
      have hfirst : b 0 = c := hb 0 (by simp)
      have hrest : cstring n (fun i => b (i+1)) = s := by
        refine ih hs.2 (by simpa using h) (fun i hi => ?_) hend
        simpa using hb (i+1) (by simpa using hi)
      rw [cstring, hfirst, if_neg (fun h0 => hs.1 h0.symm), hrest]

/-- Two entries that are the same to all that reads them. -/
theorem nameOf_congr {sd sd' : Direntry} (h : ∀ i < SFS_NAMELEN, sd.name i = sd'.name i) : nameOf sd = nameOf sd' := by
  refine Subtype.ext (SfsckDirectories.cstring_congr fun i hi => ?_)
  simp only [update_apply]
  split
  · rfl
  · exact h i hi

theorem nameOf_named (hlen : name.val.length + 1 ≤ SFS_NAMELEN) : nameOf (named ino name) = name := by
  have hend : name.val.length ≤ SFS_NAMELEN-1 := by omega
  refine Subtype.ext (cstring_fits name.2 (by omega) (fun i hi => ?_) ?_)
  · have hne : i ≠ SFS_NAMELEN-1 := by omega
    simp [named, Direntry.setName, update_of_ne hne, hi]
  · simp only [update_apply]
    split
    · rfl
    · simp [named, Direntry.setName]

theorem toBytes_number (hj : j < 4) : toBytes sd j = bytes sd.ino j := by
  have hlt : j < direntrySize := by
    unfold direntrySize
    omega
  simp only [toBytes, ofDirentries, Nat.mod_eq_of_lt hlt, if_pos hj]

theorem toBytes_name (hj : j < SFS_NAMELEN) : toBytes sd (4+j) = sd.name j := by
  unfold SFS_NAMELEN at hj
  have hlt : 4+j < direntrySize := by
    unfold direntrySize
    omega
  simp only [toBytes, ofDirentries, Nat.mod_eq_of_lt hlt, if_neg (show ¬4+j < 4 by omega), Nat.add_sub_cancel_left]

/-- An entry is read as it was written. -/
theorem ofBytes_written (h : ∀ j < direntrySize, data j = toBytes sd j) :
    (ofBytes data).ino = sd.ino ∧ nameOf (ofBytes data) = nameOf sd := by
  have hat : ∀ j, j < 4 → data (direntrySize*0 + j) = bytes sd.ino j := by
    intro j hj
    rw [Nat.mul_zero, Nat.zero_add, h j (by unfold direntrySize; omega), toBytes_number hj]
  constructor
  · calc word (fun i => data (direntrySize*0 + i)) = word (bytes sd.ino) := by
          simp only [word, hat 0 (by omega), hat 1 (by omega), hat 2 (by omega), hat 3 (by omega)]
      _ = sd.ino := ArgumentScan.word_bytes sd.ino_lt
  · refine nameOf_congr fun i hi => ?_
    show data (direntrySize*0 + 4 + i) = sd.name i
    rw [Nat.mul_zero, Nat.zero_add, h (4+i) (by unfold SFS_NAMELEN at hi; unfold direntrySize; omega), toBytes_name hi]

theorem ofBytes_congr {b : Buffer} (h : ∀ j < direntrySize, data j = b j) :
    (ofBytes data).ino = (ofBytes b).ino ∧ nameOf (ofBytes data) = nameOf (ofBytes b) := by
  have hat : ∀ j, j < direntrySize → data (direntrySize*0 + j) = b (direntrySize*0 + j) := by
    intro j hj
    rw [Nat.mul_zero, Nat.zero_add, h j hj]
  constructor
  · show word (fun i => data (direntrySize*0 + i)) = word (fun i => b (direntrySize*0 + i))
    simp only [word, hat 0 (by decide), hat 1 (by decide), hat 2 (by decide), hat 3 (by decide)]
  · refine nameOf_congr fun i hi => ?_
    show data (direntrySize*0 + 4 + i) = b (direntrySize*0 + 4 + i)
    rw [Nat.add_assoc]
    exact hat (4+i) (by unfold SFS_NAMELEN at hi; unfold direntrySize; omega)

/-! Reading and writing a part of a block. -/

theorem metaio_reads (h : Mounted w) (hpart : pos % SFS_BLOCKSIZE + len ≤ SFS_BLOCKSIZE) (hpos : pos / SFS_BLOCKSIZE < maxBlocks)
    (data : Buffer) : sfsMetaio .read pos data len w = .ok (.ok fun i => if i < len then byteAt w (pos+i) else data i, w) := by
  have hblock : pos / SFS_BLOCKSIZE % 2^32 = pos / SFS_BLOCKSIZE := Nat.mod_eq_of_lt (by unfold maxBlocks SFS_NDIRECT SFS_NINDIRECT SFS_DBPERIDB at hpos; omega)
  have hat : ∀ i < len, byteAt w (pos+i) = blockData w (pos / SFS_BLOCKSIZE) (pos % SFS_BLOCKSIZE + i) := by
    intro i hi
    unfold SFS_BLOCKSIZE at hpart
    unfold byteAt SFS_BLOCKSIZE
    rw [show (pos+i) / 512 = pos / 512 by omega, show (pos+i) % 512 = pos % 512 + i by omega]
  have hno : decide (Rw.read = Rw.write) = false := by decide
  simp only [sfsMetaio, hblock, hno, sfsBmap_read h.sound hpos]
  split
  · next hzero =>
    simp only [if_true, Except.ok.injEq, Prod.mk.injEq, and_true]
    funext i
    by_cases hi : i < len
    · rw [if_pos hi, if_pos hi, hat i hi, blockData, if_pos hzero]
      rfl
    · rw [if_neg hi, if_neg hi]
  · next hne =>
    simp only [sfsReadblock_ok h.sound (h.sound.held _ hne).1, Except.ok.injEq, Prod.mk.injEq, and_true]
    funext i
    by_cases hi : i < len
    · rw [if_pos hi, if_pos hi, hat i hi, blockData, if_neg hne]
    · rw [if_neg hi, if_neg hi]

/-- The bytes of a file with some of them written. -/
structure Wrote (pos len : ℕ) (data : Buffer) (w w' : World) : Prop where
  size : w'.size = max w.size (pos+len)
  bytes : ∀ x, byteAt w' x = if pos ≤ x ∧ x < pos+len then data (x-pos) else byteAt w x

/-- Nothing of a file that is read is different. -/
structure Reads (w w' : World) : Prop where
  size : w'.size = w.size
  bytes : ∀ x, byteAt w' x = byteAt w x

/-- No block has to be taken for one that is there. -/
theorem wants_present (hne : mapped w c ≠ 0) : wants w c = 0 := by
  have hindirect : ¬(SFS_NDIRECT ≤ c ∧ w.indirect = 0) := by
    rintro ⟨hc, hnone⟩
    apply hne
    unfold mapped
    rw [if_neg (by omega), if_pos hnone, ite_self]
  rw [wants, if_neg hindirect, if_neg hne]

theorem Reads.trans {w'' : World} (h : Reads w w') (h' : Reads w' w'') : Reads w w'' :=
  ⟨h'.size.trans h.size, fun x => (h'.bytes x).trans (h.bytes x)⟩

theorem metaio_writes (h : Mounted w) (hpart : pos % SFS_BLOCKSIZE + len ≤ SFS_BLOCKSIZE) (hpos : pos < 2^32)
    (hend : pos / SFS_BLOCKSIZE < maxBlocks → pos + len < 2^32) (data : Buffer) :
    ∃ res w', sfsMetaio .write pos data len w = .ok (res, w') ∧ Evolves w w' ∧
      ((∃ b, res = .ok b) ∧ pos / SFS_BLOCKSIZE < maxBlocks ∧ Wrote pos len data w w' ∨
        (∃ e, res = .error e ∧ (e = .enospc ∨ e = .efbig)) ∧ Reads w w' ∧
          (pos / SFS_BLOCKSIZE < maxBlocks → mapped w (pos / SFS_BLOCKSIZE) = 0)) := by
  have hblock : pos / SFS_BLOCKSIZE % 2^32 = pos / SFS_BLOCKSIZE := Nat.mod_eq_of_lt (by unfold SFS_BLOCKSIZE; omega)
  obtain ⟨res, w₁, hrun, hm⟩ := sfsBmap_maps h (pos / SFS_BLOCKSIZE) true
  have hspec := sfsBmap_spec h.sound (pos / SFS_BLOCKSIZE)
  simp only [sfsMetaio, hblock, decide_true, hrun]
  rw [hrun] at hspec
  cases hspec with
  | beyond hc =>
    exact ⟨_, _, rfl, hm.evolves, .inr ⟨⟨_, rfl, .inr rfl⟩, ⟨rfl, fun _ => rfl⟩, fun hlt => absurd hlt (Nat.not_lt.mpr hc)⟩⟩
  | full r _ hc hroom hg =>
    refine ⟨_, _, rfl, hm.evolves, .inr ⟨⟨_, rfl, .inl rfl⟩, ⟨hg.kept.size, hg.data⟩, fun _ => ?_⟩⟩
    by_contra hne
    rw [wants_present hne] at hroom
    omega
  | maps d _ hc hroom hmaps =>
    have hown := hm.own d rfl
    have hsound := hm.evolves.mounted.sound
    have hheld := hsound.held _ (hown ▸ hmaps.nonzero)
    rw [hown] at hheld
    simp only [if_neg hmaps.nonzero, sfsReadblock_ok hsound hheld.1]
    generalize hbuf : (fun i => if pos % SFS_BLOCKSIZE ≤ i ∧ i < pos % SFS_BLOCKSIZE + len
      then data (i - pos % SFS_BLOCKSIZE) else w₁.disk d i) = buf
    have hat : ∀ i, buf i = if pos % SFS_BLOCKSIZE ≤ i ∧ i < pos % SFS_BLOCKSIZE + len
        then data (i - pos % SFS_BLOCKSIZE) else w₁.disk d i := fun i => (congrFun hbuf i).symm
    obtain ⟨hwrite, hev, -⟩ := write_evolves hm.evolves.mounted hown hmaps.nonzero buf
    obtain ⟨w₂, hwrite', rfl, -, -, hbytes⟩ := writeblock_data hsound hown hmaps.nonzero buf
    simp only [hwrite]
    have hdata : ∀ x, byteAt { w₁ with disk := update w₁.disk d buf } x =
        if pos ≤ x ∧ x < pos+len then data (x-pos) else byteAt w x := by
      intro x
      rw [hbytes, hmaps.grown.data, hat]
      unfold SFS_BLOCKSIZE at *
      by_cases hx : x / 512 = pos / 512
      · have hsame : w₁.disk d (x % 512) = byteAt w x := by
          rw [← hmaps.grown.data, byteAt, blockData, SFS_BLOCKSIZE, hx, hown, if_neg hmaps.nonzero]
        rw [if_pos hx, hsame]
        by_cases hin : pos ≤ x ∧ x < pos+len
        · rw [if_pos hin, if_pos (by omega), show x % 512 - pos % 512 = x - pos by omega]
        · rw [if_neg hin, if_neg (by omega)]
      · rw [if_neg hx, if_neg (by omega)]
    have hsize := hmaps.grown.kept.size
    refine ⟨_, _, rfl, ?_, .inl ⟨⟨_, rfl⟩, hc, ?_, ?_⟩⟩
    · split
      · exact (hm.evolves.trans hev).congr (Nat.mod_lt _ (by decide)) w₁.user
      · exact hm.evolves.trans hev
    · have hsmall := hend hc
      split
      · next hgrow =>
        have hlt : w₁.size < pos + len := hgrow
        show (pos + len) % 2^32 = _
        rw [Nat.mod_eq_of_lt hsmall]
        omega
      · next hstay =>
        have hge : ¬w₁.size < pos + len := hstay
        show w₁.size = _
        omega
    · intro x
      rw [← hdata x]
      split <;> rfl

/-! Slots. -/

theorem slot_place (hi : i < 2^26) : slotPosition i = direntrySize*i ∧ slotPosition i % SFS_BLOCKSIZE + direntrySize ≤ SFS_BLOCKSIZE ∧
    slotPosition i / SFS_BLOCKSIZE = i / 8 := by
  have hpos : slotPosition i = direntrySize*i := by
    unfold slotPosition direntrySize
    omega
  refine ⟨hpos, ?_, ?_⟩ <;> rw [hpos] <;> unfold direntrySize SFS_BLOCKSIZE <;> omega

theorem slots_small (h : WellFormed w) : slots w < 2^26 := by
  have hsize := h.size
  unfold slots direntrySize
  omega

theorem Listing.slots_le (h : Listing w) : slots w ≤ 8 * maxBlocks := by
  have hfits := h.fits
  unfold slots direntrySize
  unfold SFS_BLOCKSIZE at hfits
  omega

theorem readdir_reads (h : Mounted w) (hi : i < 8 * maxBlocks) : ∃ sd, sfsReaddir i w = .ok (.ok sd, w) ∧
    sd.ino = (entryAt w i).ino ∧ nameOf sd = nameOf (entryAt w i) := by
  have hsmall : i < 2^26 := by
    unfold maxBlocks SFS_NDIRECT SFS_NINDIRECT SFS_DBPERIDB at hi
    omega
  obtain ⟨hpos, hpart, hblock⟩ := slot_place hsmall
  have hrun := metaio_reads h hpart (by rw [hblock]; omega) (fun _ => 0)
  refine ⟨ofBytes fun j => if j < direntrySize then byteAt w (slotPosition i + j) else 0, by rw [sfsReaddir, hrun], ?_⟩
  refine ofBytes_congr fun j hj => ?_
  rw [if_pos hj, hpos]

/-- A slot is written, in whose place there may be no room for one. -/
theorem writedir_writes (h : Mounted w) (hi : i < 2^26) (sd : Direntry) :
    ∃ res w', sfsWritedir i sd w = .ok (res, w') ∧ Evolves w w' ∧
      (res = .ok () ∧ i < 8 * maxBlocks ∧ Wrote (direntrySize*i) direntrySize (toBytes sd) w w' ∨
        (∃ e, res = .error e ∧ (e = .enospc ∨ e = .efbig)) ∧ Reads w w' ∧ (i < 8 * maxBlocks → mapped w (i/8) = 0)) := by
  obtain ⟨hpos, hpart, hblock⟩ := slot_place hi
  have hplace : direntrySize*i < 2^32 := by
    unfold direntrySize
    omega
  have hend : direntrySize*i / SFS_BLOCKSIZE < maxBlocks → direntrySize*i + direntrySize < 2^32 := by
    rw [hpos] at hblock
    rw [hblock]
    unfold maxBlocks SFS_NDIRECT SFS_NINDIRECT SFS_DBPERIDB direntrySize
    omega
  rw [hpos] at hpart hblock
  obtain ⟨res, w', hrun, hev, hcases⟩ := metaio_writes h hpart hplace hend (toBytes sd)
  rw [hblock] at hcases
  have hmax : i / 8 < maxBlocks ↔ i < 8 * maxBlocks := by omega
  rw [hmax] at hcases
  simp only [sfsWritedir, hpos, hrun]
  obtain ⟨⟨b, rfl⟩, hlt, hwrote⟩ | ⟨⟨e, rfl, he⟩, hreads, hnone⟩ := hcases
  · exact ⟨_, _, rfl, hev, .inl ⟨rfl, hlt, hwrote⟩⟩
  · exact ⟨_, _, rfl, hev, .inr ⟨⟨e, rfl, he⟩, hreads, hnone⟩⟩

/-! The directory as a list of names. -/

theorem entries_some {a : ℕ} : entries w i = some (name, a) ↔
    i < slots w ∧ a ≠ SFS_NOINO ∧ (entryAt w i).ino = a ∧ nameOf (entryAt w i) = name := by
  unfold entries
  constructor
  · intro h
    split at h
    · next hin =>
      simp only [Option.some.injEq, Prod.mk.injEq] at h
      obtain ⟨rfl, rfl⟩ := h
      exact ⟨hin.1, hin.2, rfl, rfl⟩
    · cases h
  · rintro ⟨hlt, hne, rfl, rfl⟩
    rw [if_pos ⟨hlt, hne⟩]

theorem entries_none (hi : i < slots w) : entries w i = none ↔ (entryAt w i).ino = SFS_NOINO := by
  unfold entries
  simp [hi]

theorem entries_lt (h : entries w i ≠ none) : i < slots w := by
  by_contra hno
  exact h (if_neg fun hin => hno hin.1)

theorem entries_word {a : ℕ} (h : entries w i = some (name, a)) : a < 2^32 := by
  obtain ⟨-, -, rfl, -⟩ := entries_some.mp h
  exact (entryAt w i).ino_lt

theorem Reads.entries (h : Reads w w') : entries w' = entries w := by
  have hentry : ∀ i, entryAt w' i = entryAt w i := by
    intro i
    unfold entryAt
    congr 1
    funext j
    exact h.bytes _
  funext i
  unfold SfsDir.entries slots
  rw [h.size, hentry]

theorem Reads.listing (h : Reads w w') (hl : Listing w) : Listing w' := by
  refine ⟨?_, ?_, ?_⟩
  · rw [h.size]
    exact hl.whole
  · rw [h.size]
    exact hl.fits
  · rw [h.entries]
    exact hl.distinct

/-- The slots that there are, once one of them or the next has been written. -/
theorem Wrote.slots (h : Wrote (direntrySize*k) direntrySize data w w') (hl : Listing w) (hk : k ≤ slots w) :
    SfsDir.slots w' = max (SfsDir.slots w) (k+1) ∧ w'.size % direntrySize = 0 := by
  have hwhole := hl.whole
  unfold SfsDir.slots at hk ⊢
  rw [h.size]
  unfold direntrySize at *
  omega

theorem Wrote.entries (h : Wrote (direntrySize*k) direntrySize (toBytes sd) w w') (hl : Listing w) (hk : k ≤ SfsDir.slots w) :
    entries w' = update (entries w) k (if sd.ino = SFS_NOINO then none else some (nameOf sd, sd.ino)) := by
  obtain ⟨hslots, -⟩ := h.slots hl hk
  funext i
  by_cases hi : i = k
  · subst hi
    rw [update_self]
    have hread : (entryAt w' i).ino = sd.ino ∧ nameOf (entryAt w' i) = nameOf sd := by
      refine ofBytes_written fun j hj => ?_
      rw [h.bytes, if_pos (by omega), Nat.add_sub_cancel_left]
    unfold SfsDir.entries
    rw [hslots, hread.1, hread.2]
    by_cases hfree : sd.ino = SFS_NOINO
    · rw [if_pos hfree, if_neg fun hin => hin.2 hfree]
    · rw [if_neg hfree, if_pos ⟨by omega, hfree⟩]
  · rw [update_of_ne hi]
    have hread : (entryAt w' i).ino = (entryAt w i).ino ∧ nameOf (entryAt w' i) = nameOf (entryAt w i) := by
      refine ofBytes_congr fun j hj => ?_
      rw [h.bytes, if_neg]
      unfold direntrySize at *
      omega
    have hin : i < SfsDir.slots w' ↔ i < SfsDir.slots w := by
      rw [hslots]
      omega
    unfold SfsDir.entries
    simp only [hread.1, hread.2, hin]

/-- What has been found in the slots before `i`. -/
structure Searched (w : World) (name : Name) (i : ℕ) (f : Found) : Prop where
  found : ∀ j a, f.entry = some (j, a) → entries w j = some (name, a)
  missing : f.entry = none → ∀ j < i, ∀ a, entries w j ≠ some (name, a)
  free : ∀ j, f.emptyslot = some j → j < slots w ∧ entries w j = none

theorem findLoop_finds (h : Mounted w) (hl : Listing w) (name : Name) {left : ℕ} {f : Found} (hi : i + left = slots w)
    (hs : Searched w name i f) (hbelow : ∀ j a, f.entry = some (j, a) → j < i) :
    ∃ f', findLoop name left i f w = .ok (.ok f', w) ∧ Searched w name (slots w) f' := by
  induction left generalizing i f with
  | zero =>
    obtain rfl : i = slots w := by omega
    exact ⟨f, rfl, hs⟩
  | succ left ih =>
    have hlt : i < slots w := by omega
    obtain ⟨sd, hrun, hino, hname⟩ := readdir_reads h (show i < 8 * maxBlocks from Nat.lt_of_lt_of_le hlt hl.slots_le)
    have hother : (∀ a, entries w i ≠ some (name, a)) → f.entry = none → ∀ j < i+1, ∀ a, entries w j ≠ some (name, a) := by
      intro hno hnone j hj a
      by_cases hji : j = i
      · exact hji ▸ hno a
      · exact hs.missing hnone j (by omega) a
    simp only [findLoop, hrun]
    split
    · next hfree =>
      have hempty : entries w i = none := (entries_none hlt).mpr (hino ▸ hfree)
      refine ih (by omega) ⟨hs.found, hother (by simp [hempty]), ?_⟩ fun j a hj => Nat.lt_succ_of_lt (hbelow j a hj)
      rintro j ⟨⟩
      exact ⟨hlt, hempty⟩
    · next hused =>
      split
      · next heq =>
        have hentry : entries w i = some (name, sd.ino) := entries_some.mpr ⟨hlt, hused, hino.symm, hname ▸ heq⟩
        have hfirst : ¬f.entry.isSome := by
          intro hsome
          obtain ⟨⟨j, a⟩, hj⟩ := Option.isSome_iff_exists.mp hsome
          have heq := hl.distinct j i name a sd.ino (hs.found j a hj) hentry
          have := hbelow j a hj
          omega
        rw [if_neg hfirst]
        refine ih (by omega) ⟨?_, by simp, hs.free⟩ ?_
        · rintro j a ⟨⟩
          exact hentry
        · rintro j a ⟨⟩
          exact Nat.lt_succ_self i
      · next hne =>
        have hno : ∀ a, entries w i ≠ some (name, a) := by
          intro a ha
          obtain ⟨-, -, -, hsame⟩ := entries_some.mp ha
          exact hne (hname.trans hsame)
        exact ih (by omega) ⟨hs.found, hother hno, hs.free⟩ fun j a hj => Nat.lt_succ_of_lt (hbelow j a hj)

/-- `sfs_dir_findname` finds the name if the directory has it. -/
theorem findname_finds (h : Mounted w) (hl : Listing w) (name : Name) :
    ∃ f, sfsDirFindname SFS_TYPE_DIR name w = .ok (.ok f, w) ∧ Searched w name (slots w) f := by
  have hentries : sfsDirNentries SFS_TYPE_DIR w = .ok (slots w) := by
    simp [sfsDirNentries, hl.whole, slots]
  simp only [sfsDirFindname, hentries]
  exact findLoop_finds h hl name (Nat.zero_add _) ⟨by simp, by simp, by simp⟩ (by simp)

theorem Searched.missing_all {f : Found} (hs : Searched w name (slots w) f) (hnone : f.entry = none) (j a : ℕ) :
    entries w j ≠ some (name, a) := by
  intro hj
  exact hs.missing hnone j (entries_lt (by simp [hj])) a hj

/-- What `sfs_dir_link` leaves: the new entry in a slot that was free, or everything as it was. -/
inductive Linked (name : Name) (ino : ℕ) (w w' : World) : Except Errno ℕ → Prop where
  | entered (k : ℕ) (hnew : ∀ j a, entries w j ≠ some (name, a)) (hlen : name.val.length < SFS_NAMELEN)
      (hfree : entries w k = none) (hset : entries w' = update (entries w) k (some (name, ino))) :
      Linked name ino w w' (.ok k)
  | failed (e : Errno) (hsame : entries w' = entries w) (hsize : w'.size = w.size)
      (hcause : e = .eexist ↔ ∃ j a, entries w j = some (name, a)) (hfound : e ≠ .enoent) : Linked name ino w w' (.error e)

theorem link_links (h : Mounted w) (hl : Listing w) (name : Name) (hino : ino ≠ SFS_NOINO) (hword : ino < 2^32) :
    ∃ res w', sfsDirLink SFS_TYPE_DIR name ino w = .ok (res, w') ∧ Evolves w w' ∧ Listing w' ∧ Linked name ino w w' res := by
  obtain ⟨f, hrun, hs⟩ := findname_finds h hl name
  have hentries : sfsDirNentries SFS_TYPE_DIR w = .ok (slots w) := by
    simp [sfsDirNentries, hl.whole, slots]
  simp only [sfsDirLink, hrun]
  split
  · next hsome =>
    obtain ⟨⟨j, a⟩, hj⟩ := Option.isSome_iff_exists.mp hsome
    exact ⟨_, _, rfl, Evolves.refl h, hl, .failed _ rfl rfl (iff_of_true rfl ⟨j, a, hs.found j a hj⟩) (by decide)⟩
  · next hnone =>
    have hmissing : ∀ j a, entries w j ≠ some (name, a) := hs.missing_all (by simpa using hnone)
    have hcause : ∀ {e : Errno}, e ≠ .eexist → (e = .eexist ↔ ∃ j a, entries w j = some (name, a)) :=
      fun hne => iff_of_false hne fun ⟨j, a, hj⟩ => hmissing j a hj
    split
    · exact ⟨_, _, rfl, Evolves.refl h, hl, .failed _ rfl rfl (hcause (by decide)) (by decide)⟩
    · next hlen =>
      simp only [hentries]
      have hslot : f.emptyslot.getD (slots w) ≤ slots w ∧ entries w (f.emptyslot.getD (slots w)) = none := by
        cases hempty : f.emptyslot with
        | none => exact ⟨Nat.le_refl _, if_neg fun hin => Nat.lt_irrefl _ hin.1⟩
        | some j => exact ⟨Nat.le_of_lt (hs.free j hempty).1, (hs.free j hempty).2⟩
      obtain ⟨hle, hfree⟩ := hslot
      generalize hk : f.emptyslot.getD (slots w) = k at hle hfree
      have hsmall : k < 2^26 := Nat.lt_of_le_of_lt hle (slots_small h.sound)
      have hnumber : (named ino name).ino = ino := Nat.mod_eq_of_lt hword
      obtain ⟨res, w', hwrite, hev, ⟨rfl, hlt, hwrote⟩ | ⟨⟨e, rfl, he⟩, hreads, -⟩⟩ := writedir_writes h hsmall (named ino name)
      · have hset := hwrote.entries hl hle
        rw [hnumber, if_neg hino, nameOf_named (by omega)] at hset
        simp only [hwrite]
        refine ⟨_, _, rfl, hev, ⟨(hwrote.slots hl hle).2, ?_, ?_⟩, .entered k hmissing (by omega) hfree hset⟩
        · have hfits := hl.fits
          rw [hwrote.size]
          unfold direntrySize SFS_BLOCKSIZE at *
          omega
        · intro i j n a b hi hj
          rw [hset] at hi hj
          by_cases hik : i = k
          · by_cases hjk : j = k
            · rw [hik, hjk]
            · rw [hik, update_self] at hi
              rw [update_of_ne hjk] at hj
              cases hi
              exact absurd hj (hmissing j b)
          · rw [update_of_ne hik] at hi
            by_cases hjk : j = k
            · rw [hjk, update_self] at hj
              cases hj
              exact absurd hi (hmissing i a)
            · rw [update_of_ne hjk] at hj
              exact hl.distinct i j n a b hi hj
      · simp only [hwrite]
        have hother : e ≠ .eexist ∧ e ≠ .enoent := by
          obtain rfl | rfl := he <;> decide
        exact ⟨_, _, rfl, hev, hreads.listing hl, .failed e hreads.entries hreads.size (hcause hother.1) hother.2⟩

/-- The block of an entry is there, so that `sfs_dir_unlink` does not fail. -/
theorem entries_mapped (h : entries w i ≠ none) : mapped w (i/8) ≠ 0 := by
  intro hzero
  apply h
  have hread : ∀ j < direntrySize, byteAt w (direntrySize*i + j) = 0 := by
    intro j hj
    unfold direntrySize at *
    rw [byteAt, blockData, SFS_BLOCKSIZE, show (64*i + j) / 512 = i / 8 by omega, if_pos hzero]
    rfl
  have hino : (entryAt w i).ino = SFS_NOINO := by
    show word (fun j => byteAt w (direntrySize*i + (direntrySize*0 + j))) = 0
    simp only [Nat.mul_zero, Nat.zero_add, word, hread 0 (by decide), hread 1 (by decide), hread 2 (by decide), hread 3 (by decide)]
    decide
  exact if_neg fun hin => hin.2 hino

theorem unlink_clears (h : Mounted w) (hl : Listing w) (hi : entries w i ≠ none) :
    ∃ w', sfsDirUnlink i w = .ok (.ok (), w') ∧ Evolves w w' ∧ Listing w' ∧ entries w' = update (entries w) i none := by
  have hlt := entries_lt hi
  obtain ⟨res, w', hrun, hev, ⟨rfl, hbound, hwrote⟩ | ⟨-, -, hnone⟩⟩ :=
    writedir_writes h (Nat.lt_trans hlt (slots_small h.sound)) emptyEntry
  · have hset := hwrote.entries hl (Nat.le_of_lt hlt)
    rw [if_pos (show emptyEntry.ino = SFS_NOINO from rfl)] at hset
    refine ⟨w', hrun, hev, ⟨(hwrote.slots hl (Nat.le_of_lt hlt)).2, ?_, ?_⟩, hset⟩
    · have hfits := hl.fits
      rw [hwrote.size]
      unfold direntrySize SFS_BLOCKSIZE at *
      omega
    · intro j k n a b hj hk
      have hold : ∀ {j : ℕ} {a : ℕ}, entries w' j = some (n, a) → entries w j = some (n, a) := by
        intro j a hj
        rw [hset] at hj
        by_cases hji : j = i
        · rw [hji, update_self] at hj
          cases hj
        · rwa [update_of_ne hji] at hj
      exact hl.distinct j k n a b (hold hj) (hold hk)
  · have hbound : i < 8 * maxBlocks := Nat.lt_of_lt_of_le hlt hl.slots_le
    exact absurd (hnone hbound) (entries_mapped hi)

end OS161.SfsDir
