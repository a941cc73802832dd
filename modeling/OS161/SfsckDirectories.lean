import OS161.SfsckBlocks

/-!
# Directories under sfsck

A directory is a file whose blocks have eight entries each. It is read into
memory as a whole, its entries are changed there, and it is written back block
by block. What a missing block would have reads as empty entries.
-/

set_option autoImplicit false

namespace OS161.SfsckDirectories

open Function OS161.Aborts OS161.CopyInOut OS161.Sfsck OS161.SfsckBlocks
open OS161.Sfs (Block SFS_NDIRECT SFS_DBPERIDB getNumber maxBlocks)

def SFS_NAMELEN : ℕ := 60

/-- The size of an entry, and how many there are in a block. -/
def direntrySize : ℕ := 64
def atonce : ℕ := 8

/-- A `struct sfs_direntry`. -/
structure Direntry where
  ino : ℕ
  name : ℕ → UInt8
  ino_lt : ino < 2^32

def emptyEntry : Direntry := ⟨SFS_NOINO, fun _ => 0, by decide⟩

/-- Entry `j` of a block. -/
def Direntry.ofBlock (b : Block) (j : ℕ) : Direntry where
  ino := word fun i => b (direntrySize*j + i)
  name i := b (direntrySize*j + 4 + i)
  ino_lt := word_lt _

/-- The block for some entries. -/
def ofDirentries (d : ℕ → Direntry) : Block := fun i =>
  if i % direntrySize < 4 then bytes (d (i / direntrySize)).ino (i % direntrySize)
  else (d (i / direntrySize)).name (i % direntrySize - 4)

/-- The name as a string. -/
def Direntry.string (d : Direntry) : List UInt8 := cstring SFS_NAMELEN d.name

/-- The strings "." and "..". -/
def dot : List UInt8 := [46]
def dotdot : List UInt8 := [46, 46]

def Direntry.setIno (ino : ℕ) (d : Direntry) : Direntry :=
  { d with ino := ino % 2^32, ino_lt := mod_word_lt _ }

/-- The name as `strcpy` or `snprintf` leaves it. -/
def Direntry.setName (s : List UInt8) (d : Direntry) : Direntry :=
  { d with name := fun i => if i < s.length then s.getD i 0 else if i = s.length then 0 else d.name i }

/-- No inode and no name. -/
def Direntry.clear (d : Direntry) : Direntry := ⟨SFS_NOINO, update d.name 0 0, by decide⟩

/-- A number in decimal. -/
def decimal (n : ℕ) : List UInt8 := (Nat.toDigits 10 n).map fun c => UInt8.ofNat c.toNat

/-- The name "FSCK.%lu.%lu". -/
def fsckName (ino id : ℕ) : List UInt8 := [70, 83, 67, 75, 46] ++ decimal ino ++ [46] ++ decimal id

def uniqueid : Check ℕ := do
  let w ← get
  modify fun w => { w with uniquecounter := (w.uniquecounter + 1) % 2^32 }
  pure w.uniquecounter

/-- The block of the disk that an indirect block names. -/
def ibmap (iblock offset : ℕ) : Check ℕ :=
  if iblock = 0 then pure 0
  else do
    let entries ← sfsReadindirect iblock
    pure (entries offset)

def bmap (sfi : Dinode) (fileblock : ℕ) : Check ℕ :=
  if fileblock < SFS_NDIRECT then pure (sfi.direct fileblock)
  else if fileblock < maxBlocks then ibmap sfi.indirect (fileblock - SFS_NDIRECT)
  else pure 0

def sfsReaddirblock (diskblock : ℕ) : Check (ℕ → Direntry) :=
  if diskblock ≠ 0 then do
    let b ← diskread diskblock
    pure (Direntry.ofBlock b)
  else do
    warnx .sparseDirectory
    pure fun _ => emptyEntry

/-- The body of the loop of `sfs_readdir`, for block `i` of `nd` entries. -/
def readdirBlock (sfi : Dinode) (nd : ℕ) (d : ℕ → Direntry) (i : ℕ) : Check (ℕ → Direntry) := do
  let diskblock ← bmap sfi i
  let buffer ← sfsReaddirblock diskblock
  pure fun k => if k / atonce = i ∧ k < nd then buffer (k % atonce) else d k

-- what the buffer had before is never read
def sfsReaddir (sfi : Dinode) (nd : ℕ) : Check (ℕ → Direntry) :=
  (List.range (SFS_ROUNDUP nd atonce / atonce)).foldlM (readdirBlock sfi nd) fun _ => emptyEntry

/-- An entry that a missing block cannot take. -/
def Direntry.lost (d : Direntry) : Bool := d.ino != SFS_NOINO || d.name 0 != 0

def sfsWritedirblock (d : ℕ → Direntry) (diskblock : ℕ) : Check Unit :=
  if diskblock ≠ 0 then diskwrite (ofDirentries d) diskblock
  else onlyIf ((List.range atonce).any (fun j => (d j).lost) = true) (do
    warnx .missingBlock
    setbadness EXIT_UNRECOV)

/-- The body of the loop of `sfs_writedir`. -/
def writedirBlock (sfi : Dinode) (d : ℕ → Direntry) (nd : ℕ) (_ : Unit) (i : ℕ) : Check Unit := do
  let diskblock ← bmap sfi i
  sfsWritedirblock (fun j => if i*atonce + j < nd then d (i*atonce + j) else emptyEntry) diskblock

def sfsWritedir (sfi : Dinode) (d : ℕ → Direntry) (nd : ℕ) : Check Unit :=
  (List.range (SFS_ROUNDUP nd atonce / atonce)).foldlM (writedirBlock sfi d nd) ()

/-- A directory in memory that is being gone through. -/
structure Walk where
  entries : ℕ → Direntry
  changed : Bool

def walkEntry (visit : ℕ → Direntry → Check (Direntry × Bool)) (s : Walk) (i : ℕ) : Check Walk := do
  let (d, changed) ← visit i (s.entries i)
  pure ⟨update s.entries i d, s.changed || changed⟩

/-- A loop over the first `n` entries, which may change each. -/
def walk (visit : ℕ → Direntry → Check (Direntry × Bool)) (n : ℕ) (s : Walk) : Check Walk :=
  (List.range n).foldlM (walkEntry visit) s

variable {w : World} {r : Fatal → Prop} {sfi : Dinode} {nd : ℕ}

/-- The block that `bmap` finds for block `c` of a file. -/
def bmapped (sfi : Dinode) (w : World) (c : ℕ) : ℕ :=
  if c < SFS_NDIRECT then sfi.direct c
  else if c < maxBlocks then
    if sfi.indirect = 0 then 0 else getNumber (w.disk (sector sfi.indirect)) (c - SFS_NDIRECT)
  else 0

/-- Entry `k` of a directory as it is on the disk. -/
def entryOf (sfi : Dinode) (w : World) (k : ℕ) : Direntry :=
  if bmapped sfi w (k / atonce) = 0 then emptyEntry
  else .ofBlock (w.disk (sector (bmapped sfi w (k / atonce)))) (k % atonce)

theorem ends_bmap {Q : ℕ → World → Prop} {c : ℕ} (hio : r .io) (h : Q (bmapped sfi w c) w) :
    Ends r (bmap sfi c) w Q := by
  unfold bmapped at h
  unfold bmap ibmap sfsReadindirect
  split_ifs at h ⊢
  · exact ends_pure.mpr h
  · exact ends_pure.mpr h
  · rw [ends_bind, ends_bind]
    apply ends_diskread hio
    exact ends_pure.mpr (ends_pure.mpr h)
  · exact ends_pure.mpr h

/-- Where the blocks of a file lie is only written in its inode and its indirect block. -/
theorem bmapped_frame {w' : World}
    (h : sfi.indirect ≠ 0 → w'.disk (sector sfi.indirect) = w.disk (sector sfi.indirect)) :
    bmapped sfi w' = bmapped sfi w := by
  funext c
  unfold bmapped
  by_cases hzero : sfi.indirect = 0
  · rw [if_pos hzero, if_pos hzero]
  · rw [h hzero]

theorem bmapped_disk {w' : World} (h : w'.disk = w.disk) : bmapped sfi w' = bmapped sfi w :=
  bmapped_frame fun _ => congrFun h _

theorem roundup_atonce (h : nd + 7 < 2^32) : SFS_ROUNDUP nd atonce / atonce = (nd + 7) / 8 := by
  rw [SFS_ROUNDUP, Nat.mul_div_cancel _ (by decide), atonce, Nat.add_sub_assoc (by decide), Nat.mod_eq_of_lt h]

theorem bmapped_pointers {sfi' : Dinode} (h : SamePointers sfi sfi') (w : World) : bmapped sfi w = bmapped sfi' w := by
  funext c
  unfold bmapped
  rw [h.indirect]
  split_ifs with hc
  · exact h.direct c hc
  all_goals rfl

theorem sfsWritedirblock_still (hio : r .io) (d : ℕ → Direntry) (b : ℕ) :
    Ends r (sfsWritedirblock d b) w (fun _ w' =>
      Still w w' ∧ w'.disk = if b = 0 then w.disk else update w.disk (sector b) (ofDirentries d)) := by
  unfold sfsWritedirblock
  by_cases hb : b = 0
  · rw [if_neg (not_not_intro hb), ends_onlyIf]
    constructor
    · intro _
      rw [ends_bind]
      apply (warnx_quiet _).imp
      intro _ w₁ h₁
      apply (setbadness_quiet _).imp
      intro _ w₂ h₂
      rw [if_pos hb]
      exact ⟨(h₁.trans h₂).toStill, (h₁.trans h₂).disk⟩
    · intro _
      exact ⟨.refl w, (if_pos hb).symm⟩
  · rw [if_pos hb]
    apply ends_diskwrite hio
    exact ⟨⟨fun _ => Iff.rfl, id, rfl, rfl, rfl, rfl⟩, (if_neg hb).symm⟩

theorem sfsWritedir_still (hio : r .io) (sfi : Dinode) (d : ℕ → Direntry) (nd : ℕ) :
    Ends r (sfsWritedir sfi d nd) w (fun _ w' => Still w w') := by
  apply ends_rangeM (I := fun _ (_ : Unit) w' => Still w w')
  · intro i _ _ w₁ h₁
    rw [writedirBlock, ends_bind]
    apply ends_bmap hio
    apply (sfsWritedirblock_still hio _ _).imp
    rintro _ w₂ ⟨h₂, -⟩
    exact h₁.trans h₂
  · exact .refl w

/-- The blocks of a directory have places of their own, which are not that of the indirect block. -/
structure Placed (sfi : Dinode) (w : World) : Prop where
  block : ∀ c, bmapped sfi w c ≠ 0 → bmapped sfi w c < 2^23
  indirect : sfi.indirect ≠ 0 → sfi.indirect < 2^23
  distinct : ∀ c c', bmapped sfi w c ≠ 0 → bmapped sfi w c = bmapped sfi w c' → c = c'
  apart : ∀ c, bmapped sfi w c ≠ 0 → bmapped sfi w c ≠ sfi.indirect

/-- Block `c` of a directory, as it is written. -/
def chunk (d : ℕ → Direntry) (nd c : ℕ) : Block :=
  ofDirentries fun j => if c*atonce + j < nd then d (c*atonce + j) else emptyEntry

/-- What writing a directory of `n` blocks leaves. -/
structure Written (sfi : Dinode) (d : ℕ → Direntry) (nd n : ℕ) (w w' : World) : Prop extends Still w w' where
  blocks : ∀ c < n, bmapped sfi w c ≠ 0 → w'.disk (bmapped sfi w c) = chunk d nd c
  others : ∀ x, (∀ c < n, bmapped sfi w c ≠ 0 → bmapped sfi w c ≠ x) → w'.disk x = w.disk x

theorem Written.bmapped {d : ℕ → Direntry} {n : ℕ} {w' : World} (h : Written sfi d nd n w w') (hplaced : Placed sfi w) :
    bmapped sfi w' = SfsckDirectories.bmapped sfi w := by
  apply bmapped_frame
  intro hne
  rw [sector_small (hplaced.indirect hne)]
  exact h.others _ fun c _ hc => hplaced.apart c hc

theorem sfsWritedir_writes (hio : r .io) (hnd : nd + 7 < 2^32) (hplaced : Placed sfi w) (d : ℕ → Direntry) :
    Ends r (sfsWritedir sfi d nd) w (fun _ w' => Written sfi d nd ((nd + 7) / 8) w w') := by
  unfold sfsWritedir
  rw [roundup_atonce hnd]
  apply ends_rangeM (I := fun i (_ : Unit) w' => Written sfi d nd i w w')
  · intro i _ _ w₁ h₁
    rw [writedirBlock, ends_bind]
    apply ends_bmap hio
    rw [h₁.bmapped hplaced]
    apply (sfsWritedirblock_still hio _ _).imp
    rintro _ w₂ ⟨hstill, hdisk⟩
    refine ⟨h₁.toStill.trans hstill, ?_, ?_⟩
    · intro c hc hne
      by_cases hci : c = i
      · subst hci
        rw [hdisk, if_neg hne, sector_small (hplaced.block c hne), update_self]
        rfl
      · rw [hdisk]
        split
        · exact h₁.blocks c (by omega) hne
        · next hi =>
          rw [sector_small (hplaced.block i hi), update_of_ne fun heq => hci (hplaced.distinct c i hne heq)]
          exact h₁.blocks c (by omega) hne
    · intro x hx
      rw [hdisk]
      split
      · exact h₁.others x fun c hc => hx c (by omega)
      · next hi =>
        rw [sector_small (hplaced.block i hi), update_of_ne (hx i (by omega) hi).symm]
        exact h₁.others x fun c hc => hx c (by omega)
  · exact ⟨.refl w, fun c hc => absurd hc (Nat.not_lt_zero c), fun _ _ => rfl⟩

/-- Two entries are the same to all that reads them. -/
def Direntry.Same (d d' : Direntry) : Prop := d.ino = d'.ino ∧ d.string = d'.string

theorem cstring_congr {n : ℕ} {a b : Buffer} (h : ∀ i < n, a i = b i) : cstring n a = cstring n b := by
  induction n generalizing a b with
  | zero => rfl
  | succ n ih =>
    rw [cstring, cstring, h 0 (by omega), ih fun i hi => h (i+1) (by omega)]

/-- An entry is read as it was written. -/
theorem ofBlock_ofDirentries (d : ℕ → Direntry) (j : ℕ) : (Direntry.ofBlock (ofDirentries d) j).Same (d j) := by
  have hnumber : ∀ i < 4, ofDirentries d (direntrySize*j + i) = bytes (d j).ino i := by
    intro i hi
    rw [ofDirentries, if_pos (by unfold direntrySize; omega)]
    unfold direntrySize
    rw [show (64*j + i) / 64 = j by omega, show (64*j + i) % 64 = i by omega]
  constructor
  · calc word (fun i => ofDirentries d (direntrySize*j + i)) = word (bytes (d j).ino) := by
          simp only [word, hnumber 0 (by omega), hnumber 1 (by omega), hnumber 2 (by omega), hnumber 3 (by omega)]
      _ = (d j).ino := ArgumentScan.word_bytes (d j).ino_lt
  · apply cstring_congr
    intro i hi
    show ofDirentries d (direntrySize*j + 4 + i) = (d j).name i
    unfold SFS_NAMELEN at hi
    rw [ofDirentries, if_neg (by unfold direntrySize; omega)]
    unfold direntrySize
    rw [show (64*j + 4 + i) / 64 = j by omega, show (64*j + 4 + i) % 64 - 4 = i by omega]

/-- After a directory has been written its entries are as they were in memory, where there is a block. -/
theorem Written.entryOf {d : ℕ → Direntry} {w' : World} (h : Written sfi d nd ((nd + 7) / 8) w w')
    (hplaced : Placed sfi w) {k : ℕ} (hk : k < nd) (hblock : SfsckDirectories.bmapped sfi w (k / atonce) ≠ 0) :
    (entryOf sfi w' k).Same (d k) := by
  rw [SfsckDirectories.entryOf, h.bmapped hplaced, if_neg hblock, sector_small (hplaced.block _ hblock),
    h.blocks _ (by unfold atonce; omega) hblock, chunk]
  have hentry := ofBlock_ofDirentries (fun j => if k / atonce * atonce + j < nd then d (k / atonce * atonce + j)
    else emptyEntry) (k % atonce)
  rw [Nat.div_add_mod' k atonce, if_pos hk] at hentry
  exact hentry

end OS161.SfsckDirectories
