import OS161.ArgumentScan
import OS161.FirstFit

/-!
# Files on an SFS volume

A file has an inode with the numbers of its first blocks and of one indirect
block, which has the numbers of the others. A number of zero stands for a block
that is not there and reads as zeros. Asked to, `sfs_bmap` puts a block there:
the first that is free, cleared before it is used. The device does not fail.
-/

set_option autoImplicit false

namespace OS161.Sfs

open Function OS161.Vfs OS161.CopyInOut OS161.FirstFit

def SFS_BLOCKSIZE : ℕ := 512
def SFS_NDIRECT : ℕ := 15
def SFS_NINDIRECT : ℕ := 1
def SFS_DBPERIDB : ℕ := 128

/-- The bytes of a block, of which there are `SFS_BLOCKSIZE`. -/
abbrev Block := ℕ → UInt8

def zeros : Block := fun _ => 0

/-- The inode of a file, the volume it is on and the memory of the process that uses it. -/
structure World where
  size : ℕ
  direct : ℕ → ℕ
  indirect : ℕ
  freemap : ℕ → Bool
  nbits : ℕ
  nblocks : ℕ
  disk : ℕ → Block
  dBlocks : ℕ
  user : UserMemory

-- a request past the end of the device is a panic in `sfs_rwblock`
def sfsReadblock (block : ℕ) (w : World) : Except Stop Block :=
  if w.dBlocks < (block+1) % 2^32 then .error .panic else .ok (w.disk block)

def sfsWriteblock (block : ℕ) (data : Block) (w : World) : Except Stop World :=
  if w.dBlocks < (block+1) % 2^32 then .error .panic else .ok { w with disk := update w.disk block data }

/-- The first bit that is clear. -/
def bitmapAlloc (w : World) : Option ℕ := (List.range w.nbits).find? (fun i => !w.freemap i)

def sfsClearblock (block : ℕ) (w : World) : Except Stop World := sfsWriteblock block zeros w

def sfsBalloc (w : World) : Except Stop (Except Errno ℕ × World) :=
  match bitmapAlloc w with
  | none => .ok (.error .enospc, w)
  | some diskblock =>
    if w.nblocks ≤ diskblock then .error .panic
    else match sfsClearblock diskblock { w with freemap := update w.freemap diskblock true } with
      | .error stop => .error stop
      | .ok w' => .ok (.ok diskblock, w')

def sfsBused (diskblock : ℕ) (w : World) : Except Stop Bool :=
  if w.nblocks ≤ diskblock then .error .panic else .ok (w.freemap diskblock)

/-- The end of `sfs_bmap`: a block that is there has to be in use. -/
def handBack (block : ℕ) (w : World) : Except Stop (Except Errno ℕ × World) :=
  if block = 0 then .ok (.ok 0, w)
  else match sfsBused block w with
    | .error stop => .error stop
    | .ok used => if used then .ok (.ok block, w) else .error .panic

/-- Number `idoff` of an indirect block. -/
def getNumber (idbuf : Block) (idoff : ℕ) : ℕ := word (fun i => idbuf (4*idoff + i))

def putNumber (idbuf : Block) (idoff block : ℕ) : Block :=
  fun i => if 4*idoff ≤ i ∧ i < 4*idoff + 4 then bytes block (i - 4*idoff) else idbuf i

def directBmap (fileblock : ℕ) (doalloc : Bool) (w : World) : Except Stop (Except Errno ℕ × World) :=
  let block := w.direct fileblock
  if block = 0 ∧ doalloc then
    match sfsBalloc w with
    | .error stop => .error stop
    | .ok (.error e, w') => .ok (.error e, w')
    | .ok (.ok block, w') => handBack block { w' with direct := update w'.direct fileblock block }
  else handBack block w

/-- The rest of `sfs_bmap`, with the indirect block in `idbuf`. -/
def indirectBmap (idblock : ℕ) (idbuf : Block) (idoff : ℕ) (doalloc : Bool) (w : World) :
    Except Stop (Except Errno ℕ × World) :=
  let block := getNumber idbuf idoff
  if block = 0 ∧ doalloc then
    match sfsBalloc w with
    | .error stop => .error stop
    | .ok (.error e, w') => .ok (.error e, w')
    | .ok (.ok block, w') =>
      match sfsWriteblock idblock (putNumber idbuf idoff block) w' with
      | .error stop => .error stop
      | .ok w'' => handBack block w''
  else handBack block w

def sfsBmap (fileblock : ℕ) (doalloc : Bool) (w : World) : Except Stop (Except Errno ℕ × World) :=
  if fileblock < SFS_NDIRECT then directBmap fileblock doalloc w
  else
    let idnum := (fileblock - SFS_NDIRECT) / SFS_DBPERIDB
    let idoff := (fileblock - SFS_NDIRECT) % SFS_DBPERIDB
    if SFS_NINDIRECT ≤ idnum then .ok (.error .efbig, w)
    else if w.indirect = 0 then
      if !doalloc then .ok (.ok 0, w)
      else match sfsBalloc w with
        | .error stop => .error stop
        | .ok (.error e, w') => .ok (.error e, w')
        | .ok (.ok idblock, w') => indirectBmap idblock zeros idoff doalloc { w' with indirect := idblock }
    else match sfsReadblock w.indirect w with
      | .error stop => .error stop
      | .ok idbuf => indirectBmap w.indirect idbuf idoff doalloc w

/-- The blocks that a file can have. -/
def maxBlocks : ℕ := SFS_NDIRECT + SFS_NINDIRECT * SFS_DBPERIDB

/-- The disk block that has block `c` of the file, or zero. -/
def mapped (w : World) (c : ℕ) : ℕ :=
  if c < SFS_NDIRECT then w.direct c
  else if c < maxBlocks then
    if w.indirect = 0 then 0 else getNumber (w.disk w.indirect) (c - SFS_NDIRECT)
  else 0

/-- What block `c` of the file reads as. -/
def blockData (w : World) (c : ℕ) : Block := if mapped w c = 0 then zeros else w.disk (mapped w c)

def byteAt (w : World) (x : ℕ) : UInt8 := blockData w (x / SFS_BLOCKSIZE) (x % SFS_BLOCKSIZE)

def Free (w : World) (d : ℕ) : Prop := d < w.nbits ∧ w.freemap d = false

instance (w : World) : DecidablePred (Free w) := fun _ => inferInstanceAs (Decidable (_ ∧ _))

/-- The blocks that can still be handed out. -/
def room (w : World) : ℕ := Nat.count (Free w) w.nbits

/-- A block of the volume that is in use. -/
def Held (w : World) (d : ℕ) : Prop := d < w.nblocks ∧ w.freemap d = true

/-- A block that is in use for something else. -/
def Foreign (w : World) (e : ℕ) : Prop := w.freemap e = true ∧ (∀ c, mapped w c ≠ e) ∧ w.indirect ≠ e

/-- The volume is sound: only blocks that exist are free, and the file's own are
in use, each for one purpose. -/
structure WellFormed (w : World) : Prop where
  size : w.size < 2^32
  exist : ∀ d, Free w d → 0 < d ∧ d < w.nblocks
  device : w.nblocks ≤ w.dBlocks
  words : w.dBlocks < 2^32
  held : ∀ c, mapped w c ≠ 0 → Held w (mapped w c)
  heldIndirect : w.indirect ≠ 0 → Held w w.indirect
  once : ∀ c c', mapped w c = mapped w c' → mapped w c ≠ 0 → c = c'
  apart : ∀ c, mapped w c ≠ 0 → mapped w c ≠ w.indirect

/-- What neither an allocation nor a block that is written changes. -/
structure Kept (w w' : World) : Prop where
  size : w'.size = w.size
  nbits : w'.nbits = w.nbits
  nblocks : w'.nblocks = w.nblocks
  dBlocks : w'.dBlocks = w.dBlocks
  user : w'.user = w.user

/-- Block `d` has been taken and cleared; besides it only the indirect block may differ. -/
structure Taken (d : ℕ) (w w' : World) : Prop where
  kept : Kept w w'
  freemap : w'.freemap = update w.freemap d true
  cleared : w'.disk d = zeros
  disk : ∀ e, e ≠ d → e ≠ w.indirect → w'.disk e = w.disk e

/-- After `r` blocks have been taken, the file is as before and the volume sound. -/
structure Grown (r : ℕ) (w w' : World) : Prop where
  sound : WellFormed w'
  kept : Kept w w'
  free : ∀ d, Free w' d ↔ Left (Free w) r d
  data : ∀ x, byteAt w' x = byteAt w x
  foreign : ∀ e, Foreign w e → Foreign w' e ∧ w'.disk e = w.disk e

variable {w w' w'' : World} {c d k r s : ℕ}

theorem Kept.refl (w : World) : Kept w w := ⟨rfl, rfl, rfl, rfl, rfl⟩

theorem Kept.trans (h : Kept w w') (h' : Kept w' w'') : Kept w w'' :=
  ⟨h'.size.trans h.size, h'.nbits.trans h.nbits, h'.nblocks.trans h.nblocks, h'.dBlocks.trans h.dBlocks,
    h'.user.trans h.user⟩

/-- The size of a file has no part in where its bytes are. -/
theorem WellFormed.resize (h : WellFormed w) (s : ℕ) (hs : s < 2^32) : WellFormed { w with size := s } :=
  ⟨hs, h.exist, h.device, h.words, h.held, h.heldIndirect, h.once, h.apart⟩

/-- Nor has the memory of a process. -/
theorem WellFormed.withUser (h : WellFormed w) (m : UserMemory) : WellFormed { w with user := m } :=
  ⟨h.size, h.exist, h.device, h.words, h.held, h.heldIndirect, h.once, h.apart⟩

theorem Grown.refl (h : WellFormed w) : Grown 0 w w :=
  ⟨h, Kept.refl w, fun _ => left_zero.symm, fun _ => rfl, fun _ he => ⟨he, rfl⟩⟩

theorem Grown.trans (h : Grown r w w') (h' : Grown s w' w'') : Grown (r+s) w w'' := by
  refine ⟨h'.sound, h.kept.trans h'.kept, ?_, fun x => (h'.data x).trans (h.data x), ?_⟩
  · intro d
    rw [h'.free d]
    exact left_add h.free s d
  · intro e he
    obtain ⟨he', hdisk⟩ := h.foreign e he
    obtain ⟨he'', hdisk'⟩ := h'.foreign e he'
    exact ⟨he'', hdisk'.trans hdisk⟩

theorem Grown.room (h : Grown r w w') : room w' = room w - r := by
  unfold Sfs.room
  rw [h.kept.nbits, count_congr h.free, count_left]

theorem bitmapAlloc_some (h : bitmapAlloc w = some d) : Least (Free w) d := by
  unfold bitmapAlloc at h
  rw [List.find?_range_eq_some] at h
  obtain ⟨hclear, hlt, hbelow⟩ := h
  refine ⟨⟨by simpa using hlt, by simpa using hclear⟩, ?_⟩
  rintro c hc ⟨-, hfree⟩
  simpa [hfree] using hbelow c hc

theorem bitmapAlloc_none : bitmapAlloc w = none ↔ room w = 0 := by
  simp only [bitmapAlloc, room, Nat.count_iff_forall_not, List.find?_eq_none, List.mem_range, Free]
  simp only [Bool.not_eq_true', not_and]
  constructor
  · intro h i hi _
    exact h i hi
  · intro h i hi
    exact h i hi hi

theorem sfsBalloc_full (h : room w = 0) : sfsBalloc w = .ok (.error .enospc, w) := by
  rw [sfsBalloc, bitmapAlloc_none.mpr h]

/-- The world once block `d` is in use and cleared. -/
def take (d : ℕ) (w : World) : World :=
  { w with freemap := update w.freemap d true, disk := update w.disk d zeros }

theorem sfsWriteblock_ok (h : WellFormed w) (hd : d < w.nblocks) (data : Block) :
    sfsWriteblock d data w = .ok { w with disk := update w.disk d data } := by
  have hdevice := h.device
  have hwords := h.words
  exact if_neg (by omega)

theorem sfsReadblock_ok (h : WellFormed w) (hd : d < w.nblocks) : sfsReadblock d w = .ok (w.disk d) := by
  have hdevice := h.device
  have hwords := h.words
  exact if_neg (by omega)

theorem sfsBalloc_takes (h : WellFormed w) (hroom : 0 < room w) :
    ∃ d, Least (Free w) d ∧ sfsBalloc w = .ok (.ok d, take d w) := by
  cases halloc : bitmapAlloc w with
  | none =>
    rw [bitmapAlloc_none] at halloc
    omega
  | some d =>
    have hleast := bitmapAlloc_some halloc
    have hlt := (h.exist d hleast.1).2
    have hdevice := h.device
    have hwords := h.words
    refine ⟨d, hleast, ?_⟩
    simp only [sfsBalloc, halloc, if_neg (Nat.not_le.mpr hlt), sfsClearblock, sfsWriteblock]
    rw [if_neg (by omega)]
    rfl

/-- A free block is not one of the file's. -/
theorem WellFormed.fresh (h : WellFormed w) (hd : Free w d) : (∀ c, mapped w c ≠ d) ∧ w.indirect ≠ d := by
  have hpos := (h.exist d hd).1
  constructor
  · rintro c rfl
    have hused := (h.held c (by omega)).2
    rw [hd.2] at hused
    cases hused
  · rintro rfl
    have hused := (h.heldIndirect (by omega)).2
    rw [hd.2] at hused
    cases hused

theorem Taken.free (h : Taken d w w') (c : ℕ) : Free w' c ↔ Free w c ∧ c ≠ d := by
  unfold Free
  rw [h.kept.nbits, h.freemap]
  by_cases hc : c = d
  · subst hc
    simp
  · simp [hc]

theorem Taken.held (h : Taken d w w') (hd : d < w.nblocks) (c : ℕ) : Held w' c ↔ Held w c ∨ c = d := by
  unfold Held
  rw [h.kept.nblocks, h.freemap]
  by_cases hc : c = d
  · subst hc
    simp [hd]
  · simp [hc]

/-- The parts of soundness that do not depend on what the block is for. -/
theorem Taken.sound (ht : Taken d w w') (h : WellFormed w) (hd : Least (Free w) d)
    (hheld : ∀ c, mapped w' c ≠ 0 → mapped w' c = mapped w c ∨ mapped w' c = d)
    (hindirect : w'.indirect = w.indirect ∨ w'.indirect = d)
    (honce : ∀ c c', mapped w' c = mapped w' c' → mapped w' c ≠ 0 → c = c')
    (hapart : ∀ c, mapped w' c ≠ 0 → mapped w' c ≠ w'.indirect) : WellFormed w' := by
  have hlt := (h.exist d hd.1).2
  refine ⟨?_, ?_, ?_, ?_, ?_, ?_, honce, hapart⟩
  · rw [ht.kept.size]
    exact h.size
  · intro e he
    rw [ht.kept.nblocks]
    exact h.exist e ((ht.free e).mp he).1
  · rw [ht.kept.nblocks, ht.kept.dBlocks]
    exact h.device
  · rw [ht.kept.dBlocks]
    exact h.words
  · intro c hc
    rw [ht.held hlt]
    obtain hold | hnew := hheld c hc
    · left
      rw [hold] at hc ⊢
      exact h.held c hc
    · exact .inr hnew
  · intro hne
    rw [ht.held hlt]
    obtain hold | hnew := hindirect
    · left
      rw [hold] at hne ⊢
      exact h.heldIndirect hne
    · exact .inr hnew

theorem byteAt_congr (h : ∀ c, blockData w' c = blockData w c) (x : ℕ) : byteAt w' x = byteAt w x := by
  unfold byteAt
  rw [h]

theorem Taken.data_old (ht : Taken d w w') (h : WellFormed w) (hd : Least (Free w) d)
    (hc : mapped w' c = mapped w c) : blockData w' c = blockData w c := by
  unfold blockData
  rw [hc]
  by_cases hzero : mapped w c = 0
  · rw [if_pos hzero, if_pos hzero]
  · rw [if_neg hzero, if_neg hzero, ht.disk _ ((h.fresh hd.1).1 c) (h.apart c hzero)]

/-- What is in use for something else stays so, as the file only gets a free block. -/
theorem Taken.foreign (ht : Taken d w w') (hd : Least (Free w) d)
    (hmapped : ∀ c, mapped w' c = mapped w c ∨ mapped w' c = d)
    (hindirect : w'.indirect = w.indirect ∨ w'.indirect = d) (e : ℕ) (he : Foreign w e) :
    Foreign w' e ∧ w'.disk e = w.disk e := by
  obtain ⟨hused, hblocks, hind⟩ := he
  have hne : e ≠ d := by
    rintro rfl
    have hclear := hd.1.2
    rw [hused] at hclear
    cases hclear
  refine ⟨⟨?_, ?_, ?_⟩, ht.disk e hne hind.symm⟩
  · rwa [ht.freemap, update_of_ne hne]
  · intro c
    obtain hold | hnew := hmapped c
    · rw [hold]
      exact hblocks c
    · rw [hnew]
      exact hne.symm
  · obtain hold | hnew := hindirect
    · rwa [hold]
    · rw [hnew]
      exact hne.symm

/-- The block is for block `c` of the file, where there was none. -/
theorem Taken.grown_block (ht : Taken d w w') (h : WellFormed w) (hd : Least (Free w) d) (hc : mapped w c = 0)
    (hmapped : mapped w' = update (mapped w) c d) (hindirect : w'.indirect = w.indirect) : Grown 1 w w' := by
  obtain ⟨hfresh, hfresh'⟩ := h.fresh hd.1
  have hself : mapped w' c = d := by rw [hmapped, update_self]
  have hother : ∀ e, e ≠ c → mapped w' e = mapped w e := by
    intro e he
    rw [hmapped, update_of_ne he]
  have hcases : ∀ e, mapped w' e = mapped w e ∨ mapped w' e = d := by
    intro e
    by_cases he : e = c
    · subst he
      exact .inr hself
    · exact .inl (hother e he)
  refine ⟨ht.sound h hd (fun e _ => hcases e) (.inl hindirect) ?_ ?_, ht.kept, ?_, byteAt_congr ?_,
    ht.foreign hd hcases (.inl hindirect)⟩
  · intro e e' heq hne
    by_cases he : e = c
    · by_cases he' : e' = c
      · rw [he, he']
      · rw [he, hself, hother e' he'] at heq
        exact absurd heq.symm (hfresh e')
    · rw [hother e he] at heq hne
      by_cases he' : e' = c
      · rw [he', hself] at heq
        exact absurd heq (hfresh e)
      · rw [hother e' he'] at heq
        exact h.once e e' heq hne
  · intro e hne
    rw [hindirect]
    by_cases he : e = c
    · rw [he, hself]
      exact hfresh'.symm
    · rw [hother e he] at hne ⊢
      exact h.apart e hne
  · intro e
    rw [ht.free, left_one hd]
  · intro e
    by_cases he : e = c
    · subst he
      have hpos := (h.exist d hd.1).1
      simp only [blockData, hself, hc, if_neg (Nat.ne_of_gt hpos), if_true, ht.cleared]
    · exact ht.data_old h hd (hother e he)

/-- The block is for the indirect block, which the file did not have. -/
theorem Taken.grown_indirect (ht : Taken d w w') (h : WellFormed w) (hd : Least (Free w) d)
    (hmapped : mapped w' = mapped w) (hindirect : w'.indirect = d) : Grown 1 w w' := by
  have hsame : ∀ e, mapped w' e = mapped w e ∨ mapped w' e = d := fun e => .inl (congrFun hmapped e)
  refine ⟨ht.sound h hd (fun e _ => hsame e) (.inr hindirect) ?_ ?_, ht.kept, ?_, byteAt_congr ?_,
    ht.foreign hd hsame (.inr hindirect)⟩
  · rw [hmapped]
    exact h.once
  · intro e _
    rw [hmapped, hindirect]
    exact (h.fresh hd.1).1 e
  · intro e
    rw [ht.free, left_one hd]
  · intro e
    exact ht.data_old h hd (congrFun hmapped e)

theorem handBack_ok (h : Held w d) (hd : d ≠ 0) : handBack d w = .ok (.ok d, w) := by
  simp only [handBack, if_neg hd, sfsBused, if_neg (Nat.not_le.mpr h.1), h.2, if_true]

theorem getNumber_put (idbuf : Block) (k c : ℕ) (hd : d < 2^32) :
    getNumber (putNumber idbuf k d) c = if c = k then d else getNumber idbuf c := by
  unfold getNumber
  by_cases hc : c = k
  · subst hc
    rw [if_pos rfl]
    calc word (fun i => putNumber idbuf c d (4*c+i)) = word (bytes d) := by simp [word, putNumber]
      _ = d := ArgumentScan.word_bytes hd
  · rw [if_neg hc]
    have hsame : ∀ i < 4, putNumber idbuf k d (4*c+i) = idbuf (4*c+i) := by
      intro i hi
      exact if_neg (by omega)
    simp only [word, hsame 0 (by omega), hsame 1 (by omega), hsame 2 (by omega), hsame 3 (by omega)]

theorem getNumber_zeros (k : ℕ) : getNumber zeros k = 0 := rfl

theorem mapped_direct (hc : c < SFS_NDIRECT) : mapped w c = w.direct c := if_pos hc

theorem mapped_indirect (hk : k < SFS_DBPERIDB) (hindirect : w.indirect ≠ 0) :
    mapped w (SFS_NDIRECT + k) = getNumber (w.disk w.indirect) k := by
  have hmax : SFS_NDIRECT + k < maxBlocks := by
    unfold maxBlocks SFS_NINDIRECT
    omega
  rw [mapped, if_neg (by omega), if_pos hmax, if_neg hindirect, Nat.add_sub_cancel_left]

theorem mapped_none (hk : k < SFS_DBPERIDB) (hindirect : w.indirect = 0) : mapped w (SFS_NDIRECT + k) = 0 := by
  have hmax : SFS_NDIRECT + k < maxBlocks := by
    unfold maxBlocks SFS_NINDIRECT
    omega
  rw [mapped, if_neg (by omega), if_pos hmax, if_pos hindirect]

/-- What the last part of `sfs_bmap` does for block `c` of the file: the block is
there, the volume is full, or the first free block is taken. -/
inductive Fills (c : ℕ) (w : World) : Except Stop (Except Errno ℕ × World) → Prop where
  | present (hc : mapped w c ≠ 0) : Fills c w (.ok (.ok (mapped w c), w))
  | full (hc : mapped w c = 0) (hroom : room w = 0) : Fills c w (.ok (.error .enospc, w))
  | taken (d : ℕ) (w' : World) (hc : mapped w c = 0) (hd : Least (Free w) d) (ht : Grown 1 w w')
      (hmapped : mapped w' = update (mapped w) c d) (hindirect : w'.indirect = w.indirect) :
      Fills c w (.ok (.ok d, w'))

theorem taken_take (d : ℕ) (w : World) : Taken d w (take d w) := by
  refine ⟨⟨rfl, rfl, rfl, rfl, rfl⟩, rfl, by simp [take], ?_⟩
  intro e he _
  exact update_of_ne he _ _

theorem directBmap_fills (h : WellFormed w) (hc : c < SFS_NDIRECT) : Fills c w (directBmap c true w) := by
  have hmap : mapped w c = w.direct c := mapped_direct hc
  by_cases hzero : w.direct c = 0
  · by_cases hroom : room w = 0
    · simp only [directBmap, hzero, and_self, if_true, sfsBalloc_full hroom]
      exact .full (hmap.trans hzero) hroom
    · obtain ⟨d, hleast, halloc⟩ := sfsBalloc_takes h (Nat.pos_of_ne_zero hroom)
      have hd := h.exist d hleast.1
      let w' : World := { take d w with direct := update w.direct c d }
      have hindirect : w'.indirect = w.indirect := rfl
      have hmapped : mapped w' = update (mapped w) c d := by
        funext e
        by_cases he : e = c
        · subst he
          rw [update_self, mapped_direct hc]
          exact update_self e d w.direct
        · rw [update_of_ne he]
          unfold mapped
          by_cases hdirect : e < SFS_NDIRECT
          · rw [if_pos hdirect, if_pos hdirect]
            exact update_of_ne he _ _
          · rw [if_neg hdirect, if_neg hdirect, hindirect]
            by_cases hnone : w.indirect = 0
            · rw [if_pos hnone, if_pos hnone]
            · have hdisk : w'.disk w.indirect = w.disk w.indirect := update_of_ne (h.fresh hleast.1).2 _ _
              rw [hdisk]
      have ht : Taken d w w' := by
        obtain ⟨hkept, hfreemap, hcleared, hdisk⟩ := taken_take d w
        exact ⟨⟨rfl, rfl, rfl, rfl, rfl⟩, hfreemap, hcleared, hdisk⟩
      have hheld : Held w' d := (ht.held hd.2 d).mpr (.inr rfl)
      simp only [directBmap, hzero, and_self, if_true, halloc]
      have hhand : handBack d w' = .ok (.ok d, w') := handBack_ok hheld (by omega)
      have hgoal := Fills.taken d w' (hmap.trans hzero) hleast
        (ht.grown_block h hleast (hmap.trans hzero) hmapped hindirect) hmapped hindirect
      rw [← hhand] at hgoal
      exact hgoal
  · have hne : mapped w c ≠ 0 := by rwa [hmap]
    have hgoal := Fills.present hne
    rw [← handBack_ok (h.held c hne) hne, hmap] at hgoal
    simpa only [directBmap, hzero, false_and, if_false] using hgoal

theorem indirectBmap_fills (h : WellFormed w) (hk : k < SFS_DBPERIDB) (hindirect : w.indirect ≠ 0) :
    Fills (SFS_NDIRECT + k) w (indirectBmap w.indirect (w.disk w.indirect) k true w) := by
  have hmap := mapped_indirect hk hindirect
  by_cases hzero : getNumber (w.disk w.indirect) k = 0
  · have hc : mapped w (SFS_NDIRECT + k) = 0 := hmap.trans hzero
    by_cases hroom : room w = 0
    · simp only [indirectBmap, hzero, and_self, if_true, sfsBalloc_full hroom]
      exact .full hc hroom
    · obtain ⟨d, hleast, halloc⟩ := sfsBalloc_takes h (Nat.pos_of_ne_zero hroom)
      have hd := h.exist d hleast.1
      have hidblock := h.heldIndirect hindirect
      have hfresh : w.indirect ≠ d := (h.fresh hleast.1).2
      have hwords : d < 2^32 := by
        have hdevice := h.device
        have hsmall := h.words
        omega
      let idbuf := putNumber (w.disk w.indirect) k d
      let w' : World := { take d w with disk := update (take d w).disk w.indirect idbuf }
      have hdisk : w'.disk w.indirect = idbuf := by simp [w']
      have hwrite : sfsWriteblock w.indirect idbuf (take d w) = .ok w' := by
        have hdevice := h.device
        have hlt := hidblock.1
        have hsmall := h.words
        have hdevice' : (take d w).dBlocks = w.dBlocks := rfl
        exact if_neg (by omega)
      have hmapped : mapped w' = update (mapped w) (SFS_NDIRECT + k) d := by
        funext e
        by_cases he : e = SFS_NDIRECT + k
        · subst he
          rw [update_self, mapped_indirect hk (show w'.indirect ≠ 0 from hindirect)]
          exact (congrArg (getNumber · k) hdisk).trans ((getNumber_put _ _ _ hwords).trans (if_pos rfl))
        · rw [update_of_ne he]
          unfold mapped
          by_cases hdirect : e < SFS_NDIRECT
          · rw [if_pos hdirect, if_pos hdirect]
            rfl
          · have hne : e - SFS_NDIRECT ≠ k := by omega
            have hread : getNumber (w'.disk w'.indirect) (e - SFS_NDIRECT)
                = getNumber (w.disk w.indirect) (e - SFS_NDIRECT) :=
              (congrArg (getNumber · _) hdisk).trans ((getNumber_put _ _ _ hwords).trans (if_neg hne))
            rw [if_neg hdirect, if_neg hdirect, hread]
            rfl
      have ht : Taken d w w' := by
        refine ⟨⟨rfl, rfl, rfl, rfl, rfl⟩, rfl, ?_, ?_⟩
        · simp [w', take, update_of_ne hfresh.symm]
        · intro e he hne
          simp [w', take, update_of_ne he, update_of_ne hne]
      have hhand : handBack d w' = .ok (.ok d, w') := handBack_ok ((ht.held hd.2 d).mpr (.inr rfl)) (by omega)
      have hgoal := Fills.taken d w' hc hleast (ht.grown_block h hleast hc hmapped rfl) hmapped rfl
      rw [← hhand] at hgoal
      simpa only [indirectBmap, hzero, and_self, if_true, halloc, hwrite, idbuf] using hgoal
  · have hne : mapped w (SFS_NDIRECT + k) ≠ 0 := by rwa [hmap]
    have hgoal := Fills.present hne
    rw [← handBack_ok (h.held _ hne) hne, hmap] at hgoal
    simpa only [indirectBmap, hzero, false_and, if_false] using hgoal

/-- How many blocks the volume has to have left for block `c` to be there. -/
def wants (w : World) (c : ℕ) : ℕ :=
  (if SFS_NDIRECT ≤ c ∧ w.indirect = 0 then 1 else 0) + if mapped w c = 0 then 1 else 0

/-- Block `d` is block `c` of the file now, and was or is the last that had to be taken. -/
structure Maps (c d : ℕ) (w w' : World) : Prop where
  grown : Grown (wants w c) w w'
  nonzero : d ≠ 0
  mapped : mapped w' = update (mapped w) c d
  indirect : w'.indirect = 0 ↔ w.indirect = 0 ∧ c < SFS_NDIRECT
  old : Sfs.mapped w c ≠ 0 → d = Sfs.mapped w c
  new : Sfs.mapped w c = 0 → Free w d ∧ Nat.count (Free w) d + 1 = wants w c

/-- What `sfs_bmap` does when it may allocate. -/
inductive BmapSpec (c : ℕ) (w : World) : Except Stop (Except Errno ℕ × World) → Prop where
  | beyond (hc : maxBlocks ≤ c) : BmapSpec c w (.ok (.error .efbig, w))
  | full (r : ℕ) (w' : World) (hc : c < maxBlocks) (hroom : room w < wants w c) (hg : Grown r w w') :
      BmapSpec c w (.ok (.error .enospc, w'))
  | maps (d : ℕ) (w' : World) (hc : c < maxBlocks) (hroom : wants w c ≤ room w) (hm : Maps c d w w') :
      BmapSpec c w (.ok (.ok d, w'))

/-- After the indirect block, if that had to be taken, comes the block itself. -/
theorem Fills.spec {p : ℕ} {res : Except Stop (Except Errno ℕ × World)} (hf : Fills c w' res) (hsound : WellFormed w')
    (hg : Grown p w w') (hmapped : Sfs.mapped w' = Sfs.mapped w)
    (hindirect : w'.indirect = 0 ↔ w.indirect = 0 ∧ c < SFS_NDIRECT)
    (hp : p = if SFS_NDIRECT ≤ c ∧ w.indirect = 0 then 1 else 0) (hroom : p ≤ room w) (hc : c < maxBlocks) :
    BmapSpec c w res := by
  have hwants : wants w c = p + if mapped w c = 0 then 1 else 0 := by rw [wants, hp]
  cases hf with
  | present hne =>
    rw [hmapped] at hne ⊢
    rw [if_neg hne, Nat.add_zero] at hwants
    refine .maps _ w' hc (by omega) ⟨?_, hne, ?_, hindirect, fun _ => rfl, fun h0 => absurd h0 hne⟩
    · rwa [hwants]
    · rw [hmapped, update_eq_self]
  | full h0 hfull =>
    rw [hmapped] at h0
    rw [if_pos h0] at hwants
    rw [hg.room] at hfull
    exact .full p w' hc (by omega) hg
  | taken d w'' h0 hd ht hmapped' hindirect' =>
    rw [hmapped] at h0 hmapped'
    rw [if_pos h0] at hwants
    have hpos := (hsound.exist d hd.1).1
    obtain ⟨hfree, hcount⟩ := least_left hg.free hd
    have hmore : 0 < room w' := by
      unfold room
      exact Nat.pos_of_ne_zero (Nat.count_ne_iff_exists.mpr ⟨d, hd.1.1, hd.1⟩)
    rw [hg.room] at hmore
    refine .maps d w'' hc (by omega) ⟨?_, by omega, hmapped', ?_, fun hne => absurd h0 hne, fun _ => ⟨hfree, by omega⟩⟩
    · rw [hwants]
      exact hg.trans ht
    · rwa [hindirect']

theorem sfsBmap_spec (h : WellFormed w) (c : ℕ) : BmapSpec c w (sfsBmap c true w) := by
  by_cases hdirect : c < SFS_NDIRECT
  · rw [sfsBmap, if_pos hdirect]
    exact (directBmap_fills h hdirect).spec h (Grown.refl h) rfl (by simp [hdirect])
      (by rw [if_neg (by omega)]) (Nat.zero_le _) (by unfold maxBlocks; omega)
  · by_cases hbig : maxBlocks ≤ c
    · have hidnum : SFS_NINDIRECT ≤ (c - SFS_NDIRECT) / SFS_DBPERIDB := by
        unfold maxBlocks SFS_NDIRECT SFS_NINDIRECT SFS_DBPERIDB at *
        omega
      simp only [sfsBmap, if_neg hdirect, if_pos hidnum]
      exact .beyond hbig
    · obtain ⟨k, rfl⟩ : ∃ k, c = SFS_NDIRECT + k := ⟨c - SFS_NDIRECT, by omega⟩
      have hk : k < SFS_DBPERIDB := by
        unfold maxBlocks SFS_NINDIRECT at hbig
        omega
      have hidnum : ¬SFS_NINDIRECT ≤ k / SFS_DBPERIDB := by
        rw [Nat.div_eq_of_lt hk]
        decide
      have hle : SFS_NDIRECT ≤ SFS_NDIRECT + k := Nat.le_add_right _ _
      simp only [sfsBmap, if_neg hdirect, Nat.add_sub_cancel_left, if_neg hidnum, Nat.mod_eq_of_lt hk]
      by_cases hindirect : w.indirect = 0
      · simp only [hindirect, if_true, Bool.not_true, Bool.false_eq_true, if_false]
        by_cases hroom : room w = 0
        · simp only [sfsBalloc_full hroom]
          refine .full 0 w (by omega) ?_ (Grown.refl h)
          rw [wants, if_pos ⟨hle, hindirect⟩]
          omega
        · obtain ⟨d, hleast, halloc⟩ := sfsBalloc_takes h (Nat.pos_of_ne_zero hroom)
          have hd := h.exist d hleast.1
          let w' : World := { take d w with indirect := d }
          have hne : w'.indirect ≠ 0 := by
            show d ≠ 0
            omega
          have hdisk : w'.disk w'.indirect = zeros := by simp [w', take]
          have hmapped : mapped w' = mapped w := by
            funext e
            unfold mapped
            by_cases hlow : e < SFS_NDIRECT
            · rw [if_pos hlow, if_pos hlow]
              rfl
            · rw [if_neg hlow, if_neg hlow, if_neg hne, if_pos hindirect, hdisk, getNumber_zeros]
          have ht : Taken d w w' := by
            obtain ⟨-, hfreemap, hcleared, hdisk⟩ := taken_take d w
            exact ⟨⟨rfl, rfl, rfl, rfl, rfl⟩, hfreemap, hcleared, hdisk⟩
          have hg : Grown 1 w w' := ht.grown_indirect h hleast hmapped rfl
          have hgoal := (indirectBmap_fills hg.sound hk hne).spec hg.sound hg hmapped
            ⟨fun h0 => absurd h0 hne, fun h0 => by omega⟩ (by rw [if_pos ⟨hle, hindirect⟩]) (by omega) (by omega)
          rw [hdisk] at hgoal
          simp only [halloc]
          exact hgoal
      · simp only [if_neg hindirect, sfsReadblock_ok h (h.heldIndirect hindirect).1]
        exact (indirectBmap_fills h hk hindirect).spec h (Grown.refl h) rfl (by simp [hindirect])
          (by simp [hindirect]) (Nat.zero_le _) (by omega)

/-- Without allocation, `sfs_bmap` looks a block up. -/
theorem sfsBmap_read (h : WellFormed w) (hc : c < maxBlocks) : sfsBmap c false w = .ok (.ok (mapped w c), w) := by
  have hhand : handBack (mapped w c) w = .ok (.ok (mapped w c), w) := by
    by_cases hzero : mapped w c = 0
    · rw [hzero]
      rfl
    · exact handBack_ok (h.held c hzero) hzero
  by_cases hdirect : c < SFS_NDIRECT
  · rw [mapped_direct hdirect] at hhand ⊢
    simpa [sfsBmap, hdirect, directBmap] using hhand
  · obtain ⟨k, rfl⟩ : ∃ k, c = SFS_NDIRECT + k := ⟨c - SFS_NDIRECT, by omega⟩
    have hk : k < SFS_DBPERIDB := by
      unfold maxBlocks SFS_NINDIRECT at hc
      omega
    have hidnum : ¬SFS_NINDIRECT ≤ k / SFS_DBPERIDB := by
      rw [Nat.div_eq_of_lt hk]
      decide
    simp only [sfsBmap, if_neg hdirect, Nat.add_sub_cancel_left, if_neg hidnum, Nat.mod_eq_of_lt hk]
    by_cases hindirect : w.indirect = 0
    · simp only [hindirect, if_true, Bool.not_false, mapped_none hk hindirect]
    · rw [mapped_indirect hk hindirect] at hhand ⊢
      simpa [hindirect, sfsReadblock_ok h (h.heldIndirect hindirect).1, indirectBmap] using hhand

/-- Writing a block of the file replaces its bytes and no others. -/
theorem writeblock_data (h : WellFormed w) (hc : mapped w c = d) (hd : d ≠ 0) (data : Block) :
    ∃ w', sfsWriteblock d data w = .ok w' ∧ w' = { w with disk := update w.disk d data } ∧ WellFormed w' ∧
      mapped w' = mapped w ∧
      ∀ x, byteAt w' x = if x / SFS_BLOCKSIZE = c then data (x % SFS_BLOCKSIZE) else byteAt w x := by
  subst hc
  have hheld := h.held c hd
  let w' : World := { w with disk := update w.disk (mapped w c) data }
  have hmapped : mapped w' = mapped w := by
    funext e
    have hdisk : w'.disk w.indirect = w.disk w.indirect := update_of_ne (h.apart c hd).symm _ _
    unfold mapped
    simp only [show w'.indirect = w.indirect from rfl, hdisk]
    rfl
  refine ⟨w', sfsWriteblock_ok h hheld.1 data, rfl, ?_, hmapped, ?_⟩
  · refine ⟨h.size, h.exist, h.device, h.words, ?_, h.heldIndirect, ?_, ?_⟩
    · rw [hmapped]
      exact h.held
    · rw [hmapped]
      exact h.once
    · rw [hmapped]
      exact h.apart
  · intro x
    unfold byteAt blockData
    rw [hmapped]
    by_cases hx : x / SFS_BLOCKSIZE = c
    · rw [if_pos hx, hx, if_neg hd]
      exact congrFun (update_self (mapped w c) data w.disk) _
    · rw [if_neg hx]
      by_cases hzero : mapped w (x / SFS_BLOCKSIZE) = 0
      · rw [if_pos hzero, if_pos hzero]
      · have hne : mapped w (x / SFS_BLOCKSIZE) ≠ mapped w c := fun heq => hx (h.once _ _ heq hzero)
        rw [if_neg hzero, if_neg hzero]
        exact congrFun (update_of_ne hne data w.disk) _

end OS161.Sfs
