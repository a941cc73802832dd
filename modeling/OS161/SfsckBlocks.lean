import OS161.Sfsck

/-!
# The blocks of an inode under sfsck

A pointer of an inode is to a block of data or to an indirect block, whose
entries are pointers again. All are visited in the order of the file, and the
running number `curfileblock` says which block of the file comes next. What
points outside of the volume is cleared; what is past the end of the file is
cleared and freed.
-/

set_option autoImplicit false

namespace OS161.SfsckBlocks

open Function OS161.Aborts OS161.Sfsck
open OS161.Sfs (Block SFS_BLOCKSIZE SFS_NDIRECT SFS_DBPERIDB getNumber maxBlocks)

structure Ibstate where
  ino : ℕ
  curfileblock : ℕ
  fileblocks : ℕ
  volblocks : ℕ
  pasteofcount : ℕ
  usagetype : Blockusage

def Ibstate.advance (n : ℕ) (ibs : Ibstate) : Ibstate :=
  { ibs with curfileblock := (ibs.curfileblock + n) % 2^32 }

/-- What a visit makes of an entry. -/
structure Visit where
  entry : ℕ
  changed : Bool
  ibs : Ibstate

/-- The body of the loop over the direct blocks and of that over an indirect block of level 1. -/
def checkDatablock (entry : ℕ) (ibs : Ibstate) : Check Visit :=
  if ibs.volblocks ≤ entry then do
    setbadness EXIT_RECOV
    warnx (.directOutside ibs.ino ibs.curfileblock entry)
    pure ⟨0, true, ibs.advance 1⟩
  else if entry ≠ 0 then
    if ibs.curfileblock < ibs.fileblocks then do
      freemapBlockinuse entry ibs.usagetype ibs.ino
      pure ⟨entry, false, ibs.advance 1⟩
    else do
      setbadness EXIT_RECOV
      freemapBlockfree entry
      pure ⟨0, true, { ibs.advance 1 with pasteofcount := ibs.pasteofcount + 1 }⟩
  else pure ⟨entry, false, ibs.advance 1⟩

/-- A table of pointers that is being visited. -/
structure Scan where
  entries : ℕ → ℕ
  changed : Bool
  ibs : Ibstate

def scanEntry (visit : ℕ → Ibstate → Check Visit) (s : Scan) (i : ℕ) : Check Scan := do
  let v ← visit (s.entries i) s.ibs
  pure ⟨update s.entries i v.entry, s.changed || v.changed, v.ibs⟩

/-- The loop over the first `n` entries. -/
def scan (visit : ℕ → Ibstate → Check Visit) (n : ℕ) (entries : ℕ → ℕ) (ibs : Ibstate) : Check Scan :=
  (List.range n).foldlM (scanEntry visit) ⟨entries, false, ibs⟩

/-- How many entries are not zero. -/
def count (entries : ℕ → ℕ) : ℕ := (List.range SFS_DBPERIDB).countP (fun i => entries i != 0)

/-- The end of `check_indirect_block`. -/
def finishIndirect (ientry : ℕ) (s : Scan) : Check Visit :=
  if count s.entries = 0 then
    if ientry ≠ 0 then do
      setbadness EXIT_RECOV
      freemapBlockfree ientry
      pure ⟨0, true, s.ibs⟩
    else pure ⟨ientry, false, s.ibs⟩
  else do
    require (ientry ≠ 0) .assertion
    onlyIf (s.changed = true) (sfsWriteindirect ientry s.entries)
    pure ⟨ientry, false, s.ibs⟩

/-- The blocks of a file under an indirect block. -/
def coveredblocks : ℕ → ℕ
  | 0 => 1
  | j+1 => coveredblocks j * SFS_DBPERIDB % 2^32

/-- `check_indirect_block`, with what is done for each entry. -/
def indirectWith (visit : ℕ → Ibstate → Check Visit) (indirection ientry : ℕ) (ibs : Ibstate) : Check Visit :=
  if 0 < ientry ∧ ientry < ibs.volblocks then do
    let entries ← sfsReadindirect ientry
    freemapBlockinuse ientry .iblock ibs.ino
    let s ← scan visit SFS_DBPERIDB entries ibs
    finishIndirect ientry s
  else if ibs.volblocks ≤ ientry then do
    setbadness EXIT_RECOV
    warnx (.indirectOutside ibs.ino indirection ibs.curfileblock ientry)
    pure ⟨0, true, ibs.advance (coveredblocks indirection)⟩
  else pure ⟨ientry, false, ibs.advance (coveredblocks indirection)⟩

-- the entries of an indirect block of level 1 are those of level 0, to blocks of data
def checkIndirectBlock : (indirection ientry : ℕ) → Ibstate → Check Visit
  | 0 => checkDatablock
  | n+1 => indirectWith (checkIndirectBlock n) (n+1)

def firstIbstate (ino : ℕ) (sfi : Dinode) (isdir : Bool) (w : World) : Ibstate where
  ino := ino
  curfileblock := 0
  fileblocks := SFS_ROUNDUP sfi.size SFS_BLOCKSIZE / SFS_BLOCKSIZE
  volblocks := w.nblocks
  pasteofcount := 0
  usagetype := if isdir = true then .dirdata else .data

-- an inode has one indirect block and none of a higher level
def checkInodeBlocks (ino : ℕ) (sfi : Dinode) (isdir : Bool) : Check (Bool × Dinode) := do
  let w ← get
  let s ← scan checkDatablock SFS_NDIRECT sfi.direct (firstIbstate ino sfi isdir w)
  let v ← checkIndirectBlock 1 sfi.indirect s.ibs
  onlyIf (0 < v.ibs.pasteofcount) (do
    warnx (.pastEof ino v.ibs.pasteofcount)
    setbadness EXIT_RECOV)
  pure (s.changed || v.changed, sfi.setPointers s.entries v.entry)

def InVolume (volblocks b : ℕ) : Prop := 0 < b ∧ b < volblocks

/-- What becomes of a pointer to block `c` of the file. -/
def keep (volblocks limit c entry : ℕ) : ℕ := if entry < volblocks ∧ c < limit then entry else 0

/-- The blocks that the first `n` entries name for the file, which has `limit` blocks; they are for block `a`
and those after it. -/
def Below (volblocks limit a n : ℕ) (entries : ℕ → ℕ) (b : ℕ) : Prop :=
  InVolume volblocks b ∧ ∃ k < n, entries k = b ∧ a+k < limit

def Past (volblocks limit a n : ℕ) (entries : ℕ → ℕ) (b : ℕ) : Prop :=
  InVolume volblocks b ∧ ∃ k < n, entries k = b ∧ limit ≤ a+k

/-- What a scan of the first `n` entries leaves. -/
structure Scanned (entries : ℕ → ℕ) (ibs : Ibstate) (n : ℕ) (w : World) (s : Scan) (w' : World) : Prop where
  kept : ∀ k, s.entries k =
    if k < n then keep ibs.volblocks ibs.fileblocks (ibs.curfileblock + k) (entries k) else entries k
  unchanged : s.changed = false → s.entries = entries
  counted : s.ibs = { ibs with curfileblock := ibs.curfileblock + n, pasteofcount := s.ibs.pasteofcount }
  uses : Uses (Below ibs.volblocks ibs.fileblocks ibs.curfileblock n entries)
    (Past ibs.volblocks ibs.fileblocks ibs.curfileblock n entries) w w'
  distinct : ¬w'.crosslinked → ∀ j < n, ∀ k < n, s.entries j ≠ 0 → s.entries j = s.entries k → j = k
  disk : w'.disk = w.disk

variable {r : Fatal → Prop} {w : World} {ibs : Ibstate} {entry volblocks : ℕ} {entries : ℕ → ℕ}

theorem advance_eq {n : ℕ} (h : ibs.curfileblock + n < 2^32) :
    ibs.advance n = { ibs with curfileblock := ibs.curfileblock + n } := by
  rw [Ibstate.advance, Nat.mod_eq_of_lt h]

/-- What a visit of a pointer to a block of data leaves. -/
structure Visited (entry : ℕ) (ibs : Ibstate) (w : World) (v : Visit) (w' : World) : Prop where
  kept : v.entry = keep ibs.volblocks ibs.fileblocks ibs.curfileblock entry
  unchanged : v.changed = false → v.entry = entry
  counted : v.ibs = { ibs with curfileblock := ibs.curfileblock + 1, pasteofcount := v.ibs.pasteofcount }
  uses : Uses (fun b => InVolume ibs.volblocks b ∧ entry = b ∧ ibs.curfileblock < ibs.fileblocks)
    (fun b => InVolume ibs.volblocks b ∧ entry = b ∧ ibs.fileblocks ≤ ibs.curfileblock) w w'
  disk : w'.disk = w.disk

theorem checkDatablock_visits (hcur : ibs.curfileblock + 1 < 2^32) :
    Ends r (checkDatablock entry ibs) w (Visited entry ibs w) := by
  unfold checkDatablock
  rw [advance_eq hcur]
  split_ifs with hvol hzero hlow
  · -- outside of the volume
    rw [ends_bind]
    apply (setbadness_uses EXIT_RECOV).imp
    rintro - w₁ ⟨h₁, hdisk₁⟩
    rw [ends_bind]
    apply (warnx_uses _).imp
    rintro - w₂ ⟨h₂, hdisk₂⟩
    refine ends_pure.mpr ⟨(if_neg (by omega)).symm, fun h => Bool.noConfusion h, rfl, ?_, hdisk₂.trans hdisk₁⟩
    apply (h₁.trans h₂).congr <;> grind [nothing, InVolume]
  · -- a block of the file
    rw [ends_bind]
    apply (blockinuse_uses entry ibs.usagetype ibs.ino).imp
    rintro - w₁ ⟨h₁, hdisk₁⟩
    refine ends_pure.mpr ⟨(if_pos ⟨by omega, hlow⟩).symm, fun _ => rfl, rfl, ?_, hdisk₁⟩
    apply h₁.congr <;> grind [nothing, InVolume]
  · -- past the end of the file
    rw [ends_bind]
    apply (setbadness_uses EXIT_RECOV).imp
    rintro - w₁ ⟨h₁, hdisk₁⟩
    rw [ends_bind]
    apply (blockfree_uses entry).imp
    rintro - w₂ ⟨h₂, hdisk₂⟩
    refine ends_pure.mpr ⟨(if_neg (by omega)).symm, fun h => Bool.noConfusion h, rfl, ?_, hdisk₂.trans hdisk₁⟩
    apply (h₁.trans h₂).congr <;> grind [nothing, InVolume]
  · -- no block
    have hentry : entry = 0 := by simpa using hzero
    refine ends_pure.mpr ⟨?_, fun _ => rfl, rfl, ?_, rfl⟩
    · rw [hentry, keep, ite_self]
    · apply (uses_nothing rfl id rfl).congr <;> grind [nothing, InVolume]

theorem keep_ne_zero {limit c : ℕ} (h : keep volblocks limit c entry ≠ 0) :
    InVolume volblocks entry ∧ c < limit ∧ keep volblocks limit c entry = entry := by
  unfold keep at h ⊢
  split at h
  · next hin => exact ⟨⟨Nat.pos_of_ne_zero h, hin.1⟩, hin.2, if_pos hin⟩
  · exact absurd rfl h

/-- A block that is kept in a scan has been put to use. -/
theorem Scanned.used {n k : ℕ} {s : Scan} {w' : World} (h : Scanned entries ibs n w s w') (hk : k < n)
    (hne : s.entries k ≠ 0) :
    Below ibs.volblocks ibs.fileblocks ibs.curfileblock n entries (s.entries k) := by
  have hkept := h.kept k
  rw [if_pos hk] at hkept
  rw [hkept] at hne ⊢
  obtain ⟨hin, hlow, hsame⟩ := keep_ne_zero hne
  rw [hsame]
  exact ⟨hin, k, hk, rfl, hlow⟩

theorem scan_datablocks {n : ℕ} (hcur : ibs.curfileblock + n < 2^32) :
    Ends r (scan checkDatablock n entries ibs) w (Scanned entries ibs n w) := by
  apply ends_rangeM (I := fun i s w' => Scanned entries ibs i w s w')
  · intro i hi s w₁ hs
    have hentry : s.entries i = entries i := by simp [hs.kept]
    have hnow : s.ibs.curfileblock = ibs.curfileblock + i := by rw [hs.counted]
    have hvol : s.ibs.volblocks = ibs.volblocks := by rw [hs.counted]
    have hlimit : s.ibs.fileblocks = ibs.fileblocks := by rw [hs.counted]
    rw [scanEntry, ends_bind]
    apply (checkDatablock_visits (by omega)).imp
    intro v w₂ hv
    have hkept := hv.kept
    have huses := hv.uses
    rw [hentry, hnow, hvol, hlimit] at hkept huses
    rw [ends_pure]
    -- what a later entry names is not in use before it is visited
    have hlater : ¬w₂.crosslinked → ∀ j < i, s.entries j ≠ 0 → s.entries j ≠ v.entry := by
      intro hlinks j hj hne heq
      have hold : w₁.inUse (s.entries j) := (hs.uses.inuse _).mpr (.inr (hs.used hj hne))
      rw [heq] at hold hne
      rw [hkept] at hold hne
      obtain ⟨hin, hlow, hsame⟩ := keep_ne_zero hne
      rw [hsame] at hold
      exact (huses.fresh hlinks).2 _ ⟨hin, rfl, hlow⟩ hold
    refine ⟨?_, ?_, ?_, ?_, ?_, hv.disk.trans hs.disk⟩
    · intro k
      by_cases hk : k = i
      · simp [hk, hkept]
      · have hlt : k < i+1 ↔ k < i := by omega
        simp only [update_of_ne hk, hs.kept, hlt]
    · intro hchanged
      obtain ⟨h₁, h₂⟩ := Bool.or_eq_false_iff.mp hchanged
      rw [hv.unchanged h₂, update_eq_self, hs.unchanged h₁]
    · rw [hv.counted, hs.counted]
      rfl
    · apply (hs.uses.trans huses).congr <;> grind [Below, Past]
    · intro hlinks j hj k hk hne heq
      have hsame := hs.distinct (huses.fresh hlinks).1
      have hnew := hlater hlinks
      dsimp only at hne heq
      by_cases hji : j = i <;> by_cases hki : k = i
      · rw [hji, hki]
      · rw [hji, update_self] at hne heq
        rw [update_of_ne hki] at heq
        exact absurd heq.symm (hnew k (by omega) (heq ▸ hne))
      · rw [hki, update_self, update_of_ne hji] at heq
        rw [update_of_ne hji] at hne
        exact absurd heq (hnew j (by omega) hne)
      · rw [update_of_ne hji] at hne heq
        rw [update_of_ne hki] at heq
        exact hsame j (by omega) k (by omega) hne heq
  · refine ⟨fun k => (if_neg (Nat.not_lt_zero k)).symm, fun _ => rfl, rfl, ?_,
      fun _ j hj => absurd hj (Nat.not_lt_zero j), rfl⟩
    apply (uses_nothing rfl id rfl).congr <;> simp [nothing, Below, Past]

theorem count_zero {entries : ℕ → ℕ} : count entries = 0 ↔ ∀ k < SFS_DBPERIDB, entries k = 0 := by
  simp [count, List.countP_eq_zero]

/-- The entries of an indirect block, of which there are none where there is no block. -/
def table (volblocks entry : ℕ) (w : World) (k : ℕ) : ℕ :=
  if 0 < entry ∧ entry < volblocks then getNumber (w.disk (sector entry)) k else 0

theorem table_lt (volblocks entry : ℕ) (w : World) (k : ℕ) : table volblocks entry w k < 2^32 := by
  unfold table
  split
  · exact word_lt _
  · decide

/-- What a visit of a pointer to an indirect block of level 1 leaves. -/
structure Traversed (entry : ℕ) (ibs : Ibstate) (w : World) (v : Visit) (w' : World) : Prop where
  named : v.entry = 0 ∨ v.entry = entry ∧ InVolume ibs.volblocks entry
  kept : ∀ k < SFS_DBPERIDB, table ibs.volblocks v.entry w' k =
    keep ibs.volblocks ibs.fileblocks (ibs.curfileblock + k) (table ibs.volblocks entry w k)
  unchanged : v.changed = false → v.entry = entry
  counted : v.ibs = { ibs with
    curfileblock := ibs.curfileblock + SFS_DBPERIDB, pasteofcount := v.ibs.pasteofcount }
  uses : Uses (fun b => InVolume ibs.volblocks b ∧ b = entry ∨
      Below ibs.volblocks ibs.fileblocks ibs.curfileblock SFS_DBPERIDB (table ibs.volblocks entry w) b)
    (Past ibs.volblocks ibs.fileblocks ibs.curfileblock SFS_DBPERIDB (table ibs.volblocks entry w)) w w'
  distinct : ¬w'.crosslinked → ∀ j < SFS_DBPERIDB, ∀ k < SFS_DBPERIDB, table ibs.volblocks v.entry w' j ≠ 0 →
    table ibs.volblocks v.entry w' j ≠ entry ∧
      (table ibs.volblocks v.entry w' j = table ibs.volblocks v.entry w' k → j = k)
  disk : ∀ x, w'.disk x ≠ w.disk x → InVolume ibs.volblocks entry ∧ x = sector entry

theorem finishIndirect_leaves {s : Scan} (hio : r .io) (hentry : entry ≠ 0) : Ends r (finishIndirect entry s) w
    (fun v w' => v.ibs = s.ibs ∧
      ((∀ k < SFS_DBPERIDB, s.entries k = 0) ∧ v.entry = 0 ∧ v.changed = true ∧
          Uses nothing (· = entry) w w' ∧ w'.disk = w.disk ∨
        v.entry = entry ∧ v.changed = false ∧ Uses nothing nothing w w' ∧
          w'.disk = if s.changed = true then update w.disk (sector entry) (ofEntries s.entries) else w.disk)) := by
  unfold finishIndirect
  by_cases hcount : count s.entries = 0
  · rw [if_pos hcount, if_pos hentry, ends_bind]
    apply (setbadness_uses EXIT_RECOV).imp
    rintro - w₁ ⟨h₁, hdisk₁⟩
    rw [ends_bind]
    apply (blockfree_uses entry).imp
    rintro - w₂ ⟨h₂, hdisk₂⟩
    refine ends_pure.mpr ⟨rfl, .inl ⟨count_zero.mp hcount, rfl, rfl, ?_, hdisk₂.trans hdisk₁⟩⟩
    apply (h₁.trans h₂).congr <;> simp [nothing]
  · rw [if_neg hcount, ends_bind, ends_require]
    refine ⟨fun _ => ?_, fun h => absurd hentry h⟩
    rw [ends_bind, ends_onlyIf]
    constructor
    · intro hchanged
      apply ends_diskwrite hio
      exact ends_pure.mpr ⟨rfl, .inr ⟨rfl, rfl, uses_nothing rfl id rfl, (if_pos hchanged).symm⟩⟩
    · intro hchanged
      exact ends_pure.mpr ⟨rfl, .inr ⟨rfl, rfl, uses_nothing rfl id rfl, (if_neg hchanged).symm⟩⟩

theorem table_of (h : InVolume volblocks entry) : table volblocks entry w = getNumber (w.disk (sector entry)) := by
  funext k
  exact if_pos h

theorem table_none (h : ¬InVolume volblocks entry) : table volblocks entry w = fun _ => 0 := by
  funext k
  exact if_neg h

theorem coveredblocks_one : coveredblocks 1 = SFS_DBPERIDB := by decide

/-- A pointer that names no indirect block stands for as many missing blocks. -/
theorem traversed_missing (hno : ¬InVolume ibs.volblocks entry) {v : Visit} {w' : World} (hzero : v.entry = 0)
    (hsame : v.changed = false → v.entry = entry)
    (hibs : v.ibs = { ibs with curfileblock := ibs.curfileblock + SFS_DBPERIDB })
    (huses : Uses nothing nothing w w') (hdisk : w'.disk = w.disk) : Traversed entry ibs w v w' := by
  have hnone : ¬InVolume ibs.volblocks 0 := fun h => Nat.lt_irrefl 0 h.1
  refine ⟨.inl hzero, ?_, hsame, by rw [hibs], ?_, ?_, fun x hx => absurd (congrFun hdisk x) hx⟩
  · intro k hk
    rw [hzero, table_none hnone, table_none hno, keep, ite_self]
  · rw [table_none hno]
    apply huses.congr <;> grind [nothing, Below, Past, InVolume]
  · intro _ j _ k _ hne
    rw [hzero, table_none hnone] at hne
    exact absurd rfl hne

/-- What is left of an indirect block after its entries have been scanned. -/
theorem traversed_scanned (hin : InVolume ibs.volblocks entry) {w₁ w₂ w' : World} {s : Scan} {v : Visit}
    (hmark : Uses (· = entry) nothing w w₁) (hdisk₁ : w₁.disk = w.disk)
    (hs : Scanned (getNumber (w.disk (sector entry))) ibs SFS_DBPERIDB w₁ s w₂) (hibs : v.ibs = s.ibs)
    (hfinish : (∀ k < SFS_DBPERIDB, s.entries k = 0) ∧ v.entry = 0 ∧ v.changed = true ∧
        Uses nothing (· = entry) w₂ w' ∧ w'.disk = w₂.disk ∨
      v.entry = entry ∧ v.changed = false ∧ Uses nothing nothing w₂ w' ∧
        w'.disk = if s.changed = true then update w₂.disk (sector entry) (ofEntries s.entries) else w₂.disk) :
    Traversed entry ibs w v w' := by
  have hkept : ∀ k < SFS_DBPERIDB, s.entries k = keep ibs.volblocks ibs.fileblocks (ibs.curfileblock + k)
      (getNumber (w.disk (sector entry)) k) := by
    intro k hk
    rw [hs.kept, if_pos hk]
  obtain ⟨hzero, hnone, hchanged, huses, hdisk⟩ | ⟨hsame, hchanged, huses, hdisk⟩ := hfinish
  · have hno : ¬InVolume ibs.volblocks 0 := fun h => Nat.lt_irrefl 0 h.1
    refine ⟨.inl hnone, ?_, ?_, by rw [hibs, hs.counted], ?_, ?_, ?_⟩
    · intro k hk
      rw [hnone, table_none hno, table_of hin, ← hkept k hk, hzero k hk]
    · intro h
      exact absurd (h.symm.trans hchanged) Bool.false_ne_true
    · rw [table_of hin]
      have hall : Uses _ (Past ibs.volblocks ibs.fileblocks ibs.curfileblock SFS_DBPERIDB
          (getNumber (w.disk (sector entry)))) w w' :=
        ((hmark.trans hs.uses).trans huses).drop (by grind) (by grind)
      apply hall.congr <;> grind [nothing]
    · intro _ j _ k _ hne
      rw [hnone, table_none hno] at hne
      exact absurd rfl hne
    · intro x hx
      rw [hdisk, hs.disk, hdisk₁] at hx
      exact absurd rfl hx
  · have hafter : ∀ k < SFS_DBPERIDB, table ibs.volblocks v.entry w' k = s.entries k := by
      intro k hk
      rw [hsame, table_of hin, hdisk]
      by_cases hwrite : s.changed = true
      · have hlt : s.entries k < 2^32 := by
          have hword : getNumber (w.disk (sector entry)) k < 2^32 := word_lt _
          rw [hkept k hk, keep]
          split
          · exact hword
          · decide
        rw [if_pos hwrite, update_self, getNumber_entries hlt]
      · rw [if_neg hwrite, hs.unchanged (by simpa using hwrite), hs.disk, hdisk₁]
    refine ⟨.inr ⟨hsame, hin⟩, ?_, fun _ => hsame, by rw [hibs, hs.counted], ?_, ?_, ?_⟩
    · intro k hk
      rw [hafter k hk, hkept k hk, table_of hin]
    · rw [table_of hin]
      apply ((hmark.trans hs.uses).trans huses).congr <;> grind [nothing]
    · intro hlinks j hj k hk hne
      rw [hafter j hj, hafter k hk]
      rw [hafter j hj] at hne
      have hlinks₂ := (huses.fresh hlinks).1
      refine ⟨fun heq => ?_, hs.distinct hlinks₂ j hj k hk hne⟩
      exact (hs.uses.fresh hlinks₂).2 _ (hs.used hj hne) ((hmark.inuse _).mpr (.inr heq))
    · intro x hx
      refine ⟨hin, ?_⟩
      by_contra hne
      apply hx
      rw [hdisk]
      split
      · rw [update_of_ne hne, hs.disk, hdisk₁]
      · rw [hs.disk, hdisk₁]

theorem checkIndirectBlock_traverses (hcur : ibs.curfileblock + SFS_DBPERIDB < 2^32)
    (hio : InVolume ibs.volblocks entry → r .io) :
    Ends r (checkIndirectBlock 1 entry ibs) w (Traversed entry ibs w) := by
  rw [checkIndirectBlock, indirectWith]
  have hadvance := advance_eq hcur
  rw [Nat.zero_add, coveredblocks_one, hadvance]
  by_cases hin : 0 < entry ∧ entry < ibs.volblocks
  · rw [if_pos hin, ends_bind, sfsReadindirect, ends_bind]
    apply ends_diskread (hio hin)
    rw [ends_pure, ends_bind]
    apply (blockinuse_uses entry .iblock ibs.ino).imp
    rintro - w₁ ⟨hmark, hdisk₁⟩
    rw [ends_bind]
    apply (scan_datablocks hcur).imp
    intro s w₂ hs
    apply (finishIndirect_leaves (hio hin) (Nat.ne_of_gt hin.1)).imp
    rintro v w' ⟨hibs, hfinish⟩
    exact traversed_scanned hin hmark hdisk₁ hs hibs hfinish
  · rw [if_neg hin]
    by_cases hvol : ibs.volblocks ≤ entry
    · rw [if_pos hvol, ends_bind]
      apply (setbadness_uses EXIT_RECOV).imp
      rintro - w₁ ⟨h₁, hdisk₁⟩
      rw [ends_bind]
      apply (warnx_uses _).imp
      rintro - w₂ ⟨h₂, hdisk₂⟩
      refine ends_pure.mpr (traversed_missing hin rfl (fun h => Bool.noConfusion h) rfl ?_ (hdisk₂.trans hdisk₁))
      apply (h₁.trans h₂).congr <;> simp [nothing]
    · rw [if_neg hvol]
      have hzero : entry = 0 := by omega
      exact ends_pure.mpr (traversed_missing hin hzero (fun _ => rfl) rfl (uses_nothing rfl id rfl) rfl)

/-- The pointer to block `c` of a file. -/
def mapped (sfi : Dinode) (w : World) (c : ℕ) : ℕ :=
  if c < SFS_NDIRECT then sfi.direct c else table w.nblocks sfi.indirect w (c - SFS_NDIRECT)

/-- The blocks that the inode of a file with `limit` blocks puts to use. -/
def Used (limit : ℕ) (sfi : Dinode) (w : World) (b : ℕ) : Prop :=
  InVolume w.nblocks b ∧ (b = sfi.indirect ∨ ∃ c < maxBlocks, mapped sfi w c = b ∧ c < limit)

def Dropped (limit : ℕ) (sfi : Dinode) (w : World) (b : ℕ) : Prop :=
  InVolume w.nblocks b ∧ ∃ c < maxBlocks, mapped sfi w c = b ∧ limit ≤ c

/-- What the check of the blocks leaves of an inode, where it takes the file to have `limit` blocks. -/
structure Checked (limit : ℕ) (sfi : Dinode) (w : World) (p : Bool × Dinode) (w' : World) : Prop where
  pointers : ∀ c < maxBlocks, mapped p.2 w' c = keep w.nblocks limit c (mapped sfi w c)
  uses : Uses (Used limit sfi w) (Dropped limit sfi w) w w'
  indirect : p.2.indirect = 0 ∨ p.2.indirect = sfi.indirect ∧ InVolume w.nblocks sfi.indirect
  same : ∃ direct indirect, p.2 = sfi.setPointers direct indirect
  unchanged : p.1 = false → p.2 = sfi
  distinct : ¬w'.crosslinked → ∀ c < maxBlocks, ∀ c' < maxBlocks, mapped p.2 w' c ≠ 0 →
    mapped p.2 w' c ≠ sfi.indirect ∧ (mapped p.2 w' c = mapped p.2 w' c' → c = c')
  disk : ∀ x, w'.disk x ≠ w.disk x → InVolume w.nblocks sfi.indirect ∧ x = sector sfi.indirect

theorem setPointers_self (sfi : Dinode) : sfi.setPointers sfi.direct sfi.indirect = sfi := by
  unfold Dinode.setPointers
  congr 1
  · funext c
    exact Nat.mod_eq_of_lt (sfi.direct_lt c)
  · exact Nat.mod_eq_of_lt sfi.indirect_lt

theorem keep_lt {limit c : ℕ} (h : entry < 2^32) : keep volblocks limit c entry < 2^32 := by
  unfold keep
  split <;> omega

theorem table_disk {w' : World} (h : w'.disk = w.disk) : table volblocks entry w' = table volblocks entry w := by
  funext k
  rw [table, table, h]

theorem maxBlocks_eq : maxBlocks = SFS_NDIRECT + SFS_DBPERIDB := by decide

/-- The blocks of a file are the direct ones and those of the indirect block. -/
theorem exists_mapped {sfi : Dinode} {w : World} {b : ℕ} {P : ℕ → Prop} :
    (∃ c < maxBlocks, mapped sfi w c = b ∧ P c) ↔
      (∃ k < SFS_NDIRECT, sfi.direct k = b ∧ P (0+k)) ∨
        ∃ k < SFS_DBPERIDB, table w.nblocks sfi.indirect w k = b ∧ P (SFS_NDIRECT + k) := by
  rw [maxBlocks_eq]
  constructor
  · rintro ⟨c, hc, hb, hP⟩
    unfold mapped at hb
    split at hb
    · next hlow => exact .inl ⟨c, hlow, hb, by rwa [Nat.zero_add]⟩
    · next hlow => exact .inr ⟨c - SFS_NDIRECT, by omega, hb, by rwa [Nat.add_sub_cancel' (by omega)]⟩
  · rintro (⟨k, hk, hb, hP⟩ | ⟨k, hk, hb, hP⟩)
    · exact ⟨k, by omega, by rw [mapped, if_pos hk, hb], by rwa [Nat.zero_add] at hP⟩
    · refine ⟨SFS_NDIRECT + k, by omega, ?_, hP⟩
      rw [mapped, if_neg (by omega), Nat.add_sub_cancel_left, hb]

theorem checked_of_scans {limit : ℕ} {sfi : Dinode} {w w₁ w₂ w' : World} {s : Scan} {v : Visit} {ibs : Ibstate}
    (hfirst : ibs.curfileblock = 0 ∧ ibs.volblocks = w.nblocks ∧ ibs.fileblocks = limit)
    (hs : Scanned sfi.direct ibs SFS_NDIRECT w s w₁) (hv : Traversed sfi.indirect s.ibs w₁ v w₂)
    (hend : Uses nothing nothing w₂ w') (hdisk : w'.disk = w₂.disk) :
    Checked limit sfi w (s.changed || v.changed, sfi.setPointers s.entries v.entry) w' := by
  obtain ⟨hcur, hvol, hlimit⟩ := hfirst
  have hnow : s.ibs.curfileblock = SFS_NDIRECT := by rw [hs.counted, hcur, Nat.zero_add]
  have hvol' : s.ibs.volblocks = w.nblocks := by rw [hs.counted, hvol]
  have hlimit' : s.ibs.fileblocks = limit := by rw [hs.counted, hlimit]
  have huses := hs.uses
  have hvuses := hv.uses
  rw [hcur, hvol, hlimit] at huses
  rw [hnow, hvol', hlimit', table_disk hs.disk] at hvuses
  have hsame : w'.nblocks = w.nblocks := by rw [hend.rest, hvuses.rest, huses.rest]
  have hentry : v.entry % 2^32 = v.entry := by
    apply Nat.mod_eq_of_lt
    obtain h | ⟨h, -⟩ := hv.named
    · rw [h]
      decide
    · rw [h]
      exact sfi.indirect_lt
  let sfi' := sfi.setPointers s.entries v.entry
  have hdirect : ∀ c < SFS_NDIRECT, mapped sfi' w' c = s.entries c := by
    intro c hc
    have hkept := hs.kept c
    rw [if_pos hc] at hkept
    rw [mapped, if_pos hc]
    exact Nat.mod_eq_of_lt (hkept ▸ keep_lt (sfi.direct_lt c))
  have hindirect : ∀ c, SFS_NDIRECT ≤ c → mapped sfi' w' c = table w.nblocks v.entry w₂ (c - SFS_NDIRECT) := by
    intro c hc
    rw [mapped, if_neg (Nat.not_lt.mpr hc), table_disk hdisk, hsame]
    exact congrArg (table w.nblocks · w₂ _) hentry
  have hkept : ∀ c < maxBlocks, mapped sfi' w' c = keep w.nblocks limit c (mapped sfi w c) := by
    intro c hc
    by_cases hlow : c < SFS_NDIRECT
    · rw [hdirect c hlow, hs.kept, if_pos hlow, hcur, hvol, hlimit, Nat.zero_add, mapped, if_pos hlow]
    · rw [maxBlocks_eq] at hc
      have hin : c - SFS_NDIRECT < SFS_DBPERIDB := by omega
      have hkept := hv.kept (c - SFS_NDIRECT) hin
      rw [hnow, hvol', hlimit', table_disk hs.disk, Nat.add_sub_cancel' (by omega)] at hkept
      rw [hindirect c (by omega), hkept, mapped, if_neg hlow]
  refine ⟨hkept, ?_, ?_, ⟨_, _, rfl⟩, ?_, ?_, ?_⟩
  · apply ((huses.trans hvuses).trans hend).congr
    · intro b
      rw [Used, exists_mapped]
      grind [nothing, Below]
    · intro b
      rw [Dropped, exists_mapped]
      grind [nothing, Past]
  · have hnamed := hv.named
    rw [hvol'] at hnamed
    exact hnamed.imp (fun h => hentry.trans h) (fun h => ⟨hentry.trans h.1, h.2⟩)
  · intro hchanged
    obtain ⟨h₁, h₂⟩ := Bool.or_eq_false_iff.mp hchanged
    show sfi.setPointers s.entries v.entry = sfi
    rw [hs.unchanged h₁, hv.unchanged h₂, setPointers_self]
  · intro hlinks c hc c' hc' hne
    have hlinks₂ := (hend.fresh hlinks).1
    obtain ⟨hlinks₁, hfresh⟩ := hvuses.fresh hlinks₂
    have hold : ∀ c < SFS_NDIRECT, s.entries c ≠ 0 → w₁.inUse (s.entries c) :=
      fun c hc hne => (hs.uses.inuse _).mpr (.inr (hs.used hc hne))
    have hnew : ∀ c < maxBlocks, SFS_NDIRECT ≤ c → mapped sfi' w' c ≠ 0 → ¬w₁.inUse (mapped sfi' w' c) := by
      intro c hc hhigh hne
      rw [hkept c hc] at hne ⊢
      obtain ⟨hin, hlow, heq⟩ := keep_ne_zero hne
      rw [maxBlocks_eq] at hc
      rw [heq]
      refine hfresh _ (.inr ⟨hin, c - SFS_NDIRECT, by omega, ?_, by omega⟩)
      rw [mapped, if_neg (by omega)]
    by_cases hlow : c < SFS_NDIRECT
    · rw [hdirect c hlow] at hne ⊢
      constructor
      · intro heq
        obtain ⟨hin, -⟩ := hs.used hlow hne
        rw [hvol, heq] at hin
        exact hfresh _ (.inl ⟨hin, rfl⟩) (heq ▸ hold c hlow hne)
      · intro heq
        by_cases hlow' : c' < SFS_NDIRECT
        · rw [hdirect c' hlow'] at heq
          exact hs.distinct hlinks₁ c hlow c' hlow' hne heq
        · exact absurd (heq ▸ hold c hlow hne) (hnew c' hc' (by omega) (heq ▸ hne))
    · have hnew' := hnew c hc (by omega) hne
      rw [hindirect c (by omega)] at hne hnew' ⊢
      rw [maxBlocks_eq] at hc hc'
      have hdistinct := hv.distinct hlinks₂ (c - SFS_NDIRECT) (by omega) (c' - SFS_NDIRECT)
      rw [hvol'] at hdistinct
      by_cases hlow' : c' < SFS_NDIRECT
      · refine ⟨(hv.distinct hlinks₂ (c - SFS_NDIRECT) (by omega) 0 (by decide) (hvol' ▸ hne)).1 ∘ (hvol' ▸ ·), ?_⟩
        intro heq
        rw [hdirect c' hlow'] at heq
        rw [heq] at hne hnew'
        exact absurd (hold c' hlow' hne) hnew'
      · obtain ⟨hapart, hsame⟩ := hdistinct (by omega) hne
        refine ⟨hapart, fun heq => ?_⟩
        rw [hindirect c' (by omega)] at heq
        have := hsame heq
        omega
  · intro x hx
    rw [hdisk, ← hs.disk] at hx
    have hchange := hv.disk x hx
    rwa [hvol'] at hchange

theorem checkInodeBlocks_checks (ino : ℕ) (sfi : Dinode) (isdir : Bool) (w : World)
    (hio : InVolume w.nblocks sfi.indirect → r .io) :
    Ends r (checkInodeBlocks ino sfi isdir) w
      (Checked (SFS_ROUNDUP sfi.size SFS_BLOCKSIZE / SFS_BLOCKSIZE) sfi w) := by
  rw [checkInodeBlocks, ends_bind, ends_get, ends_bind]
  apply (scan_datablocks (show 0 + SFS_NDIRECT < 2^32 by decide)).imp
  intro s w₁ hs
  have hnow : s.ibs.curfileblock = SFS_NDIRECT := by
    rw [hs.counted]
    exact Nat.zero_add _
  rw [ends_bind]
  have hvol : s.ibs.volblocks = w.nblocks := by
    rw [hs.counted]
    rfl
  apply (checkIndirectBlock_traverses (by rw [hnow]; decide) (by rwa [hvol])).imp
  intro v w₂ hv
  rw [ends_bind, ends_onlyIf]
  constructor
  · intro _
    rw [ends_bind]
    apply (warnx_uses _).imp
    rintro - w₃ ⟨h₃, hdisk₃⟩
    apply (setbadness_uses EXIT_RECOV).imp
    rintro - w₄ ⟨h₄, hdisk₄⟩
    have hend : Uses nothing nothing w₂ w₄ := by
      apply (h₃.trans h₄).congr <;> simp [nothing]
    exact ends_pure.mpr (checked_of_scans ⟨rfl, rfl, rfl⟩ hs hv hend (hdisk₄.trans hdisk₃))
  · intro _
    exact ends_pure.mpr (checked_of_scans ⟨rfl, rfl, rfl⟩ hs hv (uses_nothing rfl id rfl) rfl)

/-- The blocks that a file of a size has. -/
def sizeBlocks (size : ℕ) : ℕ := (size + (SFS_BLOCKSIZE - 1)) / SFS_BLOCKSIZE

/-- The pointers to blocks of the file are kept and the blocks are marked as in use; those past its end are
cleared and the blocks are freed, as far as they are not used otherwise. -/
structure Right (sfi : Dinode) (w : World) (sfi' : Dinode) (w' : World) : Prop where
  pointers : ∀ c < maxBlocks, mapped sfi' w' c = keep w.nblocks (sizeBlocks sfi.size) c (mapped sfi w c)
  inuse : ∀ b, w'.inUse b ↔ w.inUse b ∨ Used (sizeBlocks sfi.size) sfi w b
  tofree : ∀ b, w'.toFree b ↔ (w.toFree b ∨ Dropped (sizeBlocks sfi.size) sfi w b) ∧ ¬w'.inUse b

/-- The running number is that of the next block of the file, at every entry of a block of any level. -/
def Numbered : Prop := ∀ (level n : ℕ) (entries : ℕ → ℕ) (ibs : Ibstate) (w : World),
  ibs.curfileblock + n * SFS_DBPERIDB^level < 2^32 →
    Ends (fun _ => True) (scan (checkIndirectBlock level) n entries ibs) w
      (fun s _ => s.ibs.curfileblock = ibs.curfileblock + n * SFS_DBPERIDB^level)

theorem coveredblocks_eq (n : ℕ) : coveredblocks n = SFS_DBPERIDB^n % 2^32 := by
  induction n with
  | zero => rfl
  | succ n ih => rw [coveredblocks, ih, Nat.mod_mul_mod, ← Nat.pow_succ]

theorem advance_covered {n : ℕ} (h : ibs.curfileblock + SFS_DBPERIDB^n < 2^32) :
    (ibs.advance (coveredblocks n)).curfileblock = ibs.curfileblock + SFS_DBPERIDB^n := by
  rw [Ibstate.advance, coveredblocks_eq, Nat.mod_eq_of_lt (show SFS_DBPERIDB^n < 2^32 by omega)]
  exact Nat.mod_eq_of_lt h

theorem finishIndirect_ibs (s : Scan) : Ends (fun _ => True) (finishIndirect entry s) w (fun v _ => v.ibs = s.ibs) := by
  simp [finishIndirect, setbadness, freemapBlockfree, sfsWriteindirect, diskwrite]

/-- Visits that all lead past `m` blocks of the file lead past `n` times as many. -/
theorem scan_numbered {visit : ℕ → Ibstate → Check Visit} {m n : ℕ}
    (hvisit : ∀ entry ibs w, ibs.curfileblock + m < 2^32 → Ends (fun _ => True) (visit entry ibs) w
      (fun v _ => v.ibs.curfileblock = ibs.curfileblock + m))
    (h : ibs.curfileblock + n * m < 2^32) : Ends (fun _ => True) (scan visit n entries ibs) w
      (fun s _ => s.ibs.curfileblock = ibs.curfileblock + n * m) := by
  apply ends_rangeM (I := fun i (s : Scan) (_ : World) => s.ibs.curfileblock = ibs.curfileblock + i * m)
  · intro i hi s w₁ hs
    have hnext : (i+1) * m ≤ n * m := Nat.mul_le_mul_right m hi
    rw [Nat.add_mul, Nat.one_mul] at hnext
    rw [scanEntry, ends_bind]
    apply (hvisit _ _ _ (by omega)).imp
    intro v _ hv
    rw [ends_pure, hv, hs, Nat.add_mul, Nat.one_mul, Nat.add_assoc]
  · simp

/-- A visit at a level leads past as many blocks of the file as there can be under its pointer. -/
theorem visit_numbered (level entry : ℕ) (ibs : Ibstate) (w : World)
    (h : ibs.curfileblock + SFS_DBPERIDB^level < 2^32) :
    Ends (fun _ => True) (checkIndirectBlock level entry ibs) w
      (fun v _ => v.ibs.curfileblock = ibs.curfileblock + SFS_DBPERIDB^level) := by
  induction level generalizing entry ibs w with
  | zero =>
    apply (checkDatablock_visits h).imp
    intro v _ hv
    rw [hv.counted]
    rfl
  | succ n ih =>
    rw [checkIndirectBlock, indirectWith]
    split_ifs with hin hvol
    · simp only [ends_bind, sfsReadindirect]
      apply ends_diskread trivial
      rw [ends_pure]
      apply (blockinuse_uses _ _ _).imp
      intro _ w₁ _
      rw [Nat.pow_succ, Nat.mul_comm] at h
      apply (scan_numbered ih h).imp
      intro s w₂ hs
      apply (finishIndirect_ibs s).imp
      intro v _ hv
      rw [hv, hs, Nat.pow_succ, Nat.mul_comm]
    · simp [setbadness, warnx, advance_covered h]
    · exact ends_pure.mpr (advance_covered h)

theorem numbered : Numbered := fun level _ _ _ _ h => scan_numbered (visit_numbered level) h

theorem roundup_blocks {size : ℕ} (h : size + (SFS_BLOCKSIZE - 1) < 2^32) :
    SFS_ROUNDUP size SFS_BLOCKSIZE / SFS_BLOCKSIZE = sizeBlocks size := by
  rw [SFS_ROUNDUP, sizeBlocks, Nat.mul_div_cancel _ (by decide), Nat.add_sub_assoc (by decide), Nat.mod_eq_of_lt h]

/-- Nothing is left of a size that is rounded up past 32 bits. -/
theorem roundup_wraps {size : ℕ} (hsize : size < 2^32) (h : 2^32 ≤ size + (SFS_BLOCKSIZE - 1)) :
    SFS_ROUNDUP size SFS_BLOCKSIZE / SFS_BLOCKSIZE = 0 := by
  simp only [SFS_ROUNDUP, SFS_BLOCKSIZE] at *
  omega

theorem keep_outside {limit c : ℕ} (h : ¬InVolume volblocks entry) : keep volblocks limit c entry = 0 := by
  unfold InVolume at h
  unfold keep
  split <;> omega

theorem Checked.right {limit : ℕ} {sfi : Dinode} {p : Bool × Dinode} {w' : World}
    (h : Checked limit sfi w p w') (hlimit : limit = sizeBlocks sfi.size) : Right sfi w p.2 w' := by
  subst hlimit
  exact ⟨h.pointers, h.uses.inuse, h.uses.tofree⟩

/-- Without blocks of the file the number of blocks does not matter. -/
theorem Checked.limit {limit limit' : ℕ} {sfi : Dinode} {p : Bool × Dinode} {w' : World}
    (h : Checked limit sfi w p w') (hnone : ∀ c < maxBlocks, ¬InVolume w.nblocks (mapped sfi w c)) :
    Checked limit' sfi w p w' := by
  have hno : ∀ b, InVolume w.nblocks b → ¬∃ c < maxBlocks, mapped sfi w c = b := by
    rintro b hb ⟨c, hc, rfl⟩
    exact hnone c hc hb
  refine ⟨?_, ?_, h.indirect, h.same, h.unchanged, h.distinct, h.disk⟩
  · intro c hc
    rw [h.pointers c hc, keep_outside (hnone c hc), keep_outside (hnone c hc)]
  · apply h.uses.congr <;> grind [Used, Dropped]

/-- The check does what it should exactly if rounding up the size stays within 32 bits or there is no block
that could be lost. -/
theorem checkInodeBlocks_right_iff (ino : ℕ) (sfi : Dinode) (isdir : Bool) (w : World) :
    Numbered ∧ Ends (· = .io) (checkInodeBlocks ino sfi isdir) w (fun p w' =>
      Right sfi w p.2 w' ↔
        sfi.size + (SFS_BLOCKSIZE - 1) < 2^32 ∨ ∀ c < maxBlocks, ¬InVolume w.nblocks (mapped sfi w c)) := by
  refine ⟨numbered, ?_⟩
  apply (checkInodeBlocks_checks ino sfi isdir w fun _ => by rfl).imp
  intro p w' h
  by_cases hsize : sfi.size + (SFS_BLOCKSIZE - 1) < 2^32
  · exact iff_of_true (h.right (roundup_blocks hsize)) (.inl hsize)
  · have hwraps := roundup_wraps sfi.size_lt (Nat.le_of_not_lt hsize)
    constructor
    · intro hright
      refine .inr fun c hc hin => ?_
      have hlost := h.pointers c hc
      rw [hwraps, keep, if_neg (by omega)] at hlost
      have hlow : c < sizeBlocks sfi.size := by
        simp only [sizeBlocks, SFS_BLOCKSIZE, maxBlocks, SFS_NDIRECT, Sfs.SFS_NINDIRECT, SFS_DBPERIDB] at *
        omega
      have hkept := hright.pointers c hc
      rw [hlost, keep, if_pos ⟨hin.2, hlow⟩] at hkept
      exact Nat.ne_of_lt hin.1 hkept
    · rintro (hlt | hnone)
      · exact absurd hlt hsize
      · exact (h.limit hnone).right rfl

/-- A file of the greatest size, of which one block is there. -/
def hugeFile : Dinode where
  size := 2^32 - 1
  type := SFS_TYPE_FILE
  linkcount := 1
  direct c := if c = 0 then 5 else 0
  indirect := 0
  waste _ := 0
  size_lt := by decide
  type_lt := by decide
  linkcount_lt := by decide
  direct_lt c := by split <;> decide
  indirect_lt := by decide

theorem hugeFile_lost : ¬∀ (ino : ℕ) (sfi : Dinode) (isdir : Bool) (w : World),
    Ends (· = .io) (checkInodeBlocks ino sfi isdir) w (fun p w' => Right sfi w p.2 w') := by
  intro h
  obtain ⟨p, w', hrun, hchecked⟩ :=
    (checkInodeBlocks_checks 7 hugeFile false (blank 10) fun h => absurd h.1 (by decide)).returns
  have hmapped : mapped hugeFile (blank 10) 0 = 5 := rfl
  have hkept := ((h 7 hugeFile false (blank 10)).ok hrun).pointers 0 (by decide)
  rw [hchecked.pointers 0 (by decide), hmapped, roundup_wraps hugeFile.size_lt (by decide), keep, keep,
    if_neg (by decide), if_pos (by decide)] at hkept
  exact absurd hkept (by decide)

end OS161.SfsckBlocks
