import OS161.SfsckDirectories
import OS161.SfsckInodes

/-!
# The first pass of sfsck

The pass walks through the tree of directories from the root on. It enters
every inode that it finds in the table, and the table is what stops it: the
blocks and the entries of an inode are only checked when the inode is entered.
-/

set_option autoImplicit false

namespace OS161.SfsckPass1

open Function OS161.Aborts OS161.Sfsck OS161.SfsckBlocks OS161.SfsckInodes OS161.SfsckDirectories
open OS161.Sfs (Block SFS_BLOCKSIZE maxBlocks)

/-- The bytes of `sfi_waste`. -/
def wasteSize : ℕ := 440

def Dinode.clearWaste (d : Dinode) : Dinode := { d with waste := fun _ => 0 }

/-- What `checkzeroed` does to `sfi_waste`. -/
def checkWaste (ino : ℕ) (sfi : Dinode) : Check (Bool × Dinode) :=
  if (List.range wasteSize).any (fun i => sfi.waste i != 0) = true then do
    warnx (.wasteNotZeroed ino)
    setbadness EXIT_RECOV
    pure (true, Dinode.clearWaste sfi)
  else pure (false, sfi)

/-- Whether the inode had been found before, and the inode as it is then. -/
def pass1Inode (ino : ℕ) (sfi : Dinode) (alreadychanged : Bool) : Check (Bool × Dinode) := do
  let been ← inodeAdd ino sfi.type
  if been = true then do
    require (alreadychanged = false) .assertion
    pure (true, sfi)
  else do
    freemapBlockinuse ino .inode ino
    let p ← checkWaste ino sfi
    let p' ← checkInodeBlocks ino p.2 (decide (sfi.type = SFS_TYPE_DIR))
    note (.blocks ino)
    onlyIf ((alreadychanged || p.1 || p'.1) = true) (sfsWriteinode ino p'.2)
    pure (false, p'.2)

/-- An entry without a name gets one. -/
def checkNamed (index : ℕ) (d : Direntry) : Check (Direntry × Bool) :=
  if d.name 0 = 0 then do
    let id ← uniqueid
    setbadness EXIT_RECOV
    warnx (.fileButNoName index)
    pure (d.setName (fsckName d.ino id), true)
  else pure (d, false)

/-- What `checknullstring` does to a name. -/
def checkTerminated (index : ℕ) (d : Direntry) : Check (Direntry × Bool) :=
  if (List.range SFS_NAMELEN).any (fun i => d.name i == 0) = true then pure (d, false)
  else do
    setbadness EXIT_RECOV
    warnx (.notTerminated index)
    pure ({ d with name := update d.name (SFS_NAMELEN - 1) 0 }, true)

/-- A colon or a slash. -/
def badCharacter (c : UInt8) : Bool := c == 58 || c == 47

/-- What `checkbadstring` does to a name. -/
def checkCharacters (index : ℕ) (d : Direntry) : Check (Direntry × Bool) :=
  if d.string.any badCharacter = true then do
    setbadness EXIT_RECOV
    warnx (.invalidCharacters index)
    pure ({ d with name := fun i =>
      if i < d.string.length ∧ badCharacter (d.name i) = true then 95 else d.name i }, true)
  else pure (d, false)

def pass1Direntry (index : ℕ) (d : Direntry) : Check (Direntry × Bool) := do
  let w ← get
  if d.ino = SFS_NOINO then
    if d.name 0 ≠ 0 then do
      setbadness EXIT_RECOV
      warnx (.nameButNoFile index)
      pure (d.clear, true)
    else pure (d, false)
  else if w.nblocks ≤ d.ino then do
    setbadness EXIT_RECOV
    warnx (.outOfRange index)
    pure (d.clear, true)
  else do
    let p ← checkNamed index d
    let p' ← checkTerminated index p.1
    let p'' ← checkCharacters index p'.1
    pure (p''.1, p.2 || p'.2 || p''.2)

/-- What an entry that names an inode other than "." and ".." is followed for. -/
def pass1Follow (ino : ℕ) (dir : ℕ → Check Unit) (_ : ℕ) (d : Direntry) : Check (Direntry × Bool) :=
  if d.ino = SFS_NOINO then pure (d, false)
  else if d.string = dot then pure (d, false)
  else if d.string = dotdot then pure (d, false)
  else do
    let subsfi ← sfsReadinode d.ino
    if subsfi.type = SFS_TYPE_FILE then do
      note (.link ino d.ino)
      let _ ← pass1Inode d.ino subsfi false
      pure (d, false)
    else if subsfi.type = SFS_TYPE_DIR then do
      note (.link ino d.ino)
      dir d.ino
      pure (d, false)
    else do
      setbadness EXIT_RECOV
      warnx (.invalidType d.ino subsfi.type)
      pure (d.clear, true)

/-- The size as it should be, and whether it was not. -/
def checkSize (ino : ℕ) (sfi : Dinode) : Check (Bool × Dinode) :=
  if sfi.size % direntrySize ≠ 0 then do
    setbadness EXIT_RECOV
    warnx (.illegalSize ino sfi.size)
    pure (true, sfi.setSize (SFS_ROUNDUP sfi.size direntrySize))
  else pure (false, sfi)

/-- The loops of `pass1_dir` over the entries. -/
def pass1Entries (ino : ℕ) (dir : ℕ → Check Unit) (sfi : Dinode) : Check Unit := do
  let ndirentries := sfi.size / direntrySize
  domalloc
  let direntries ← sfsReaddir sfi ndirentries
  let s ← walk pass1Direntry ndirentries ⟨direntries, false⟩
  note (.entries ino)
  let s' ← walk (pass1Follow ino dir) ndirentries s
  onlyIf (s'.changed = true) (sfsWritedir sfi s'.entries ndirentries)

/-- The fuel bounds the depth of the recursion. -/
def pass1Dir : (fuel ino : ℕ) → Check Unit
  | 0, _ => throw .unfinished
  | fuel+1, ino => do
    let sfi ← sfsReadinode ino
    let p ← checkSize ino sfi
    let p' ← pass1Inode ino p.2 p.1
    onlyIf (p'.1 = false) (pass1Entries ino (pass1Dir fuel) p'.2)

/-- The root directory as it should be. -/
def checkRoot : Check Unit := do
  let sfi ← sfsReadinode SFS_ROOTDIR_INO
  onlyIf (sfi.type ≠ SFS_TYPE_DIR) (do
    warnx (if sfi.type = SFS_TYPE_FILE then .rootIsFile else .rootInvalid sfi.type)
    setbadness EXIT_RECOV
    sfsWriteinode SFS_ROOTDIR_INO { sfi with type := SFS_TYPE_DIR, type_lt := by decide })

/-- As deep as directories can lie: no two of those that are entered at once are the same. -/
def enoughFuel (w : World) : ℕ := w.nblocks + 3

def pass1 : Check Unit := do
  checkRoot
  let w ← get
  pass1Dir (enoughFuel w) SFS_ROOTDIR_INO

variable {w w' w₁ w₂ : World} {r : Fatal → Prop} {ino : ℕ} {sfi sfi' : Dinode}

/-- The blocks that an inode leads to, and its own. -/
def Owned (ino : ℕ) (sfi : Dinode) (w : World) (b : ℕ) : Prop :=
  b = ino ∨ b ≠ 0 ∧ (b = sfi.indirect ∨ ∃ c, bmapped sfi w c = b)

/-- How the blocks of an inode lie on the disk that is new since `w`: none was in use or is used twice. -/
structure Laid (ino : ℕ) (sfi : Dinode) (w w' : World) : Prop where
  fresh : ∀ b, Owned ino sfi w' b → w'.inUse b ∧ ¬w.inUse b ∧ b < 2^23
  distinct : ∀ c c', bmapped sfi w' c ≠ 0 → bmapped sfi w' c = bmapped sfi w' c' → c = c'
  apart : ∀ c, bmapped sfi w' c ≠ 0 → bmapped sfi w' c ≠ ino ∧ bmapped sfi w' c ≠ sfi.indirect
  indirect : sfi.indirect ≠ 0 → sfi.indirect ≠ ino
  frame : ∀ b < 2^23, w.inUse b → w'.disk b = w.disk b

/-- Writing the inode itself back changes nothing of where its blocks lie. -/
theorem Laid.written (h : Laid ino sfi w w') (b : Block) :
    Laid ino sfi w { w' with disk := update w'.disk (sector ino) b } := by
  have hino := h.fresh ino (.inl rfl)
  have hother : ∀ x, x ≠ ino → (update w'.disk (sector ino) b) x = w'.disk x := by
    intro x hx
    rw [sector_small hino.2.2]
    exact update_of_ne hx _ _
  have hsame : bmapped sfi { w' with disk := update w'.disk (sector ino) b } = bmapped sfi w' := by
    apply bmapped_frame
    intro hne
    rw [sector_small (h.fresh _ (.inr ⟨hne, .inl rfl⟩)).2.2]
    exact hother _ (h.indirect hne)
  refine ⟨?_, hsame ▸ h.distinct, hsame ▸ h.apart, h.indirect, ?_⟩
  · intro x hx
    unfold Owned at hx
    rw [hsame] at hx
    exact h.fresh x hx
  · intro x hlt huse
    rw [← h.frame x hlt huse]
    apply hother
    rintro rfl
    exact hino.2.1 huse

/-- Only the disk and the blocks in use count of the worlds before and after. -/
theorem Laid.congr (h : Laid ino sfi w₁ w₂) (hbefore : w₁.findings = w.findings ∧ w₁.disk = w.disk)
    (hafter : w'.findings = w₂.findings ∧ w'.disk = w₂.disk) : Laid ino sfi w w' := by
  have hsame : bmapped sfi w' = bmapped sfi w₂ := bmapped_disk hafter.2
  have huse : ∀ b, w₁.inUse b ↔ w.inUse b := fun b => by rw [World.inUse, World.inUse, hbefore.1]
  have huse' : ∀ b, w'.inUse b ↔ w₂.inUse b := fun b => by rw [World.inUse, World.inUse, hafter.1]
  refine ⟨?_, hsame ▸ h.distinct, hsame ▸ h.apart, h.indirect, ?_⟩
  · intro b hb
    rw [Owned, hsame] at hb
    rw [huse', ← huse]
    exact h.fresh b hb
  · intro b hlt hb
    rw [hafter.2, ← hbefore.2]
    exact h.frame b hlt ((huse b).mpr hb)

end OS161.SfsckPass1
