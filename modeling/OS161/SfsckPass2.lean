import OS161.SfsckTree

/-!
# The second pass of sfsck

The pass goes through the directories again, now that the table has all inodes.
In each it clears up names that are there twice, puts "." and ".." right, counts
the links of files and goes down into the subdirectories, each of which it
visits once. A report has the number of the directory where the program prints
its path.
-/

set_option autoImplicit false

namespace OS161.SfsckPass2

open Function OS161.Aborts OS161.Sfsck OS161.SfsckBlocks OS161.SfsckInodes OS161.SfsckDirectories OS161.SfsckPass1
open OS161.SfsckTree
open OS161.Sfs (Block)

/-- Whether `strcmp` does not put the first string after the second. -/
def strle : List UInt8 → List UInt8 → Bool
  | [], _ => true
  | _::_, [] => false
  | a::as, b::bs => if a = b then strle as bs else decide (a < b)

/-- Whether `dirsortfunc` does not put the first entry after the second: entries without an inode are last. -/
def dirle (a b : Direntry) : Bool :=
  if b.ino = SFS_NOINO then true
  else if a.ino = SFS_NOINO then false
  else strle a.string b.string

def sfsdirSort (q : Qsort) (d : ℕ → Direntry) (nd : ℕ) : List ℕ :=
  q.sort (fun i j => dirle (d i) (d j)) (List.range nd)

/-- The body of the loop that looks for names that are there twice, on two entries that are next to each other. -/
def mergePair (ino a b : ℕ) (s : Walk) : Check Walk := do
  require (a ≠ b) .assertion
  let d1 := s.entries a
  let d2 := s.entries b
  if d1.ino = SFS_NOINO ∨ d2.ino = SFS_NOINO then pure s
  else if d1.string = d2.string then
    if d1.ino = d2.ino then do
      setbadness EXIT_RECOV
      warnx (.duplicateEntries ino)
      pure ⟨update s.entries a d1.clear, true⟩
    else do
      let id ← uniqueid
      setbadness EXIT_RECOV
      warnx (.duplicateNames ino)
      pure ⟨update s.entries a (d1.setName (fsckName d1.ino id)), true⟩
  else pure s

def mergeNames (ino : ℕ) : List ℕ → Walk → Check Walk
  | a::b::rest, s => do
    let s ← mergePair ino a b s
    mergeNames ino (b::rest) s
  | _, s => pure s

/-- A directory in memory in which "." and ".." are being looked for. -/
structure Dots extends Walk where
  dotseen : Bool
  dotdotseen : Bool

/-- An entry that names another inode than it should. -/
def fixIno (target : ℕ) (t : Report) (i : ℕ) (s : Dots) : Check Dots :=
  if (s.entries i).ino ≠ target then do
    setbadness EXIT_RECOV
    warnx t
    pure { s with entries := update s.entries i ((s.entries i).setIno target), changed := true }
  else pure s

def fixDots (ino parentino : ℕ) (s : Dots) (i : ℕ) : Check Dots :=
  if (s.entries i).string = dot then do
    let s ← fixIno ino (.incorrectDot ino) i s
    require (s.dotseen = false) .assertion
    pure { s with dotseen := true }
  else if (s.entries i).string = dotdot then do
    let s ← fixIno parentino (.incorrectDotdot ino) i s
    require (s.dotdotseen = false) .assertion
    pure { s with dotdotseen := true }
  else pure s

def sfsdirTryadd (d : ℕ → Direntry) (nd : ℕ) (name : List UInt8) (ino : ℕ) : Option (ℕ → Direntry) :=
  ((List.range nd).find? fun i => (d i).ino == SFS_NOINO).map fun i => update d i (((d i).setIno ino).setName name)

/-- A directory in memory with its inode, to which entries are being added. -/
structure Dir where
  entries : ℕ → Direntry
  nd : ℕ
  sfi : Dinode
  dchanged : Bool
  ichanged : Bool

/-- A missing entry is put where there is none, or behind the last one. -/
def addMissing (name : List UInt8) (target maxd : ℕ) (added notFixed : Report) (s : Dir) : Check Dir :=
  match sfsdirTryadd s.entries s.nd name target with
  | some d => do
    setbadness EXIT_RECOV
    warnx added
    pure { s with entries := d, dchanged := true }
  | none =>
    match sfsdirTryadd s.entries maxd name target with
    | some d => do
      setbadness EXIT_RECOV
      warnx added
      pure { s with
        entries := d
        nd := s.nd + 1
        sfi := s.sfi.setSize (s.sfi.size + direntrySize)
        dchanged := true
        ichanged := true }
    | none => do
      setbadness EXIT_UNRECOV
      warnx notFixed
      pure s

def addUnless (seen : Bool) (name : List UInt8) (target maxd : ℕ) (added notFixed : Report) (s : Dir) : Check Dir :=
  if seen = true then pure s else addMissing name target maxd added notFixed s

/-- A directory in memory whose entries are being followed. -/
structure Descent extends Walk where
  subdircount : ℕ

def pass2Follow (ino : ℕ) (dir : (ino parentino : ℕ) → Check Bool) (s : Descent) (i : ℕ) : Check Descent := do
  let d := s.entries i
  if d.ino = SFS_NOINO then pure s
  else if d.string = dot then pure s
  else if d.string = dotdot then pure s
  else do
    let subsfi ← sfsReadinode d.ino
    if subsfi.type = SFS_TYPE_FILE then do
      inodeAddlink d.ino
      pure s
    else if subsfi.type = SFS_TYPE_DIR then do
      let crosslinked ← dir d.ino ino
      if crosslinked = true then do
        setbadness EXIT_RECOV
        warnx (.crosslink ino)
        pure { s with entries := update s.entries i d.clear, changed := true }
      else pure { s with subdircount := (s.subdircount + 1) % 2^32 }
    else do
      setbadness EXIT_RECOV
      warnx (.invalidType ino subsfi.type)
      pure { s with entries := update s.entries i d.clear, changed := true }

def Dinode.setLinkcount (linkcount : ℕ) (d : Dinode) : Dinode := { d with
  linkcount := linkcount % 2^16
  linkcount_lt := mod_half_lt _ }

/-- The link count as it should be, and whether it was not. -/
def fixLinkcount (ino subdircount : ℕ) (sfi : Dinode) : Check (Bool × Dinode) :=
  if sfi.linkcount ≠ (subdircount + 2) % 2^32 then do
    setbadness EXIT_RECOV
    warnx (.linkCount ino sfi.linkcount)
    pure (true, Dinode.setLinkcount (subdircount + 2) sfi)
  else pure (false, sfi)

/-- The directory as it is after names and dots have been cleared up. -/
def pass2Names (q : Qsort) (ino parentino maxd : ℕ) (sfi : Dinode) (d : ℕ → Direntry) : Check Dir := do
  let nd := sfi.size / direntrySize
  let s ← mergeNames ino (sfsdirSort q d nd) ⟨d, false⟩
  let s ← (List.range nd).foldlM (fixDots ino parentino) ⟨s, false, false⟩
  let dir ← addUnless s.dotseen dot ino maxd (.dotAdded ino) (.dotNotFixed ino) ⟨s.entries, nd, sfi, s.changed, false⟩
  addUnless s.dotdotseen dotdot parentino maxd (.dotdotAdded ino) (.dotdotNotFixed ino) dir

/-- The directory is followed and written back. -/
def pass2Entries (ino : ℕ) (dir : (ino parentino : ℕ) → Check Bool) (s : Dir) : Check Unit := do
  let t ← (List.range s.nd).foldlM (pass2Follow ino dir) ⟨⟨s.entries, s.dchanged⟩, 0⟩
  let p ← fixLinkcount ino t.subdircount s.sfi
  onlyIf (t.changed = true) (sfsWritedir p.2 t.entries s.nd)
  onlyIf ((s.ichanged || p.1) = true) (sfsWriteinode ino p.2)

/-- The entries of a directory as they are loaded, with room to the end of the last block. -/
def loadEntries (sfi : Dinode) : Check (ℕ → Direntry) := do
  let nd := sfi.size / direntrySize
  let dirsize := SFS_ROUNDUP nd atonce * direntrySize % 2^32
  domalloc
  domalloc
  require (nd * direntrySize ≤ dirsize) .overrun
  let d ← sfsReaddir sfi nd
  pure fun k => if k < nd then d k else emptyEntry

-- the fuel bounds the depth of the recursion
/-- Whether the directory had been visited before. -/
def pass2Dir (q : Qsort) : (fuel ino parentino : ℕ) → Check Bool
  | 0, _, _ => throw .unfinished
  | fuel+1, ino, parentino => do
    let been ← inodeVisitdir ino
    if been = true then pure true
    else do
      note (.processed ino)
      let sfi ← sfsReadinode ino
      let d ← loadEntries sfi
      let s ← pass2Names q ino parentino (SFS_ROUNDUP (sfi.size / direntrySize) atonce) sfi d
      pass2Entries ino (pass2Dir q fuel) s
      pure false

/-- As deep as directories can lie: each that is entered has just been marked. -/
def depth (w : World) : ℕ := w.inodes.length + 1

def pass2 (q : Qsort) : Check Unit := do
  let w ← get
  let _ ← pass2Dir q (depth w) SFS_ROOTDIR_INO SFS_ROOTDIR_INO
  pure ()

variable {w w' w₁ w₂ : World} {r : Fatal → Prop} {n m t ino parentino : ℕ} {sfi : Dinode} {good : Prop} {q : Qsort}

/-- The directory has been visited. -/
def Visited (w : World) (n : ℕ) : Prop := ∃ inf ∈ w.inodes, inf.ino = n ∧ inf.visited = true

/-- How many entries of the table have not been visited, and how many for an inode have. -/
def unvisited (w : World) : ℕ := w.inodes.countP fun inf => !inf.visited
def visits (w : World) (n : ℕ) : ℕ := w.inodes.countP fun inf => inf.ino == n && inf.visited

/-- What a part of the pass does to the table and the trail: a directory is processed just when it is marked. -/
structure Ran (w w' : World) : Prop where
  typed : typed w' = typed w
  sorted : w'.inodesSorted = w.inodesSorted
  visited : ∀ n, Visited w n → Visited w' n
  left : unvisited w' ≤ unvisited w
  processed : ∀ n, w'.trail.count (.processed n) + visits w n = w.trail.count (.processed n) + visits w' n
  others : ∀ e, (∀ n, e ≠ .processed n) → w'.trail.count e = w.trail.count e

theorem Ran.trans (h : Ran w w') (h' : Ran w' w₂) : Ran w w₂ where
  typed := h'.typed.trans h.typed
  sorted := h'.sorted.trans h.sorted
  visited n hn := h'.visited n (h.visited n hn)
  left := Nat.le_trans h'.left h.left
  processed n := by
    have h₁ := h.processed n
    have h₂ := h'.processed n
    omega
  others e he := (h'.others e he).trans (h.others e he)

theorem Ran.known (h : Ran w w') : known w' = known w := by
  rw [known_typed, known_typed, h.typed]

theorem Ran.has (h : Ran w w') : Has w' n t ↔ Has w n t := by
  rw [has_typed, has_typed, h.typed]

theorem Ran.sortedTable (h : Ran w w') (hsorted : Sorted w) : Sorted w' := by
  rw [sorted_typed, h.typed, h.sorted]
  exact sorted_typed.mp hsorted

/-- What is there is not an inode, and no directory of the table has it, so that it stays as it is. -/
def Stray (w : World) (x : ℕ) : Prop := (inodeOf w x).type ≠ SFS_TYPE_FILE ∧ (inodeOf w x).type ≠ SFS_TYPE_DIR ∧
  ∀ n, Has w n SFS_TYPE_DIR → ¬Holds w n (sector x)

/-- An entry that is not followed, or is followed to an inode in the table or to something that is not an inode. -/
def Sound (w : World) (e : Direntry) : Prop := Harmless w e ∨ Stray w e.ino

/-- Where two entries are both "." or both ".." but name different inodes, either of them could be followed. -/
def Dotted (w : World) (nd : ℕ) (d : ℕ → Direntry) : Prop :=
  ∀ j < nd, ∀ k < nd, (d j).ino ≠ SFS_NOINO → (d k).ino ≠ SFS_NOINO → (d j).ino ≠ (d k).ino →
    (d j).string = (d k).string → (d j).string = dot ∨ (d j).string = dotdot →
    (d j).ino ∈ known w ∨ Stray w (d j).ino

/-- What pass 2 relies on for a directory that is still to be visited. -/
structure Clean (w : World) (n : ℕ) : Prop where
  sound : ∀ k < (inodeOf w n).size / direntrySize, Sound w (entryOf (inodeOf w n) w k)
  dotted : Dotted w ((inodeOf w n).size / direntrySize) (entryOf (inodeOf w n) w)

/-- What pass 2 relies on for the table and the disk. -/
structure Orderly (w : World) : Prop where
  lies : Lies w
  sorted : Sorted w
  types : ∀ n t, Has w n t → (inodeOf w n).type = t
  clean : ∀ n, Has w n SFS_TYPE_DIR → ¬Visited w n → Clean w n

/-- An inode has been left alone, or its directory has been visited since. -/
def Attended (w w' : World) (n : ℕ) : Prop :=
  Untouched w w' n ∨ ¬Visited w n ∧ Visited w' n ∧ Pointed w w' n ∧ (inodeOf w' n).type = (inodeOf w n).type

/-- What a part of the pass does to the disk. -/
structure Tended (w w' : World) : Prop where
  lies : Lies w'
  each : ∀ n ∈ known w, Attended w w' n
  frame : ∀ y, (∀ n, Has w n SFS_TYPE_DIR → ¬Holds w n y) → w'.disk y = w.disk y

theorem Attended.pointed (h : Attended w w' n) : Pointed w w' n := by
  obtain h | ⟨-, -, h, -⟩ := h
  · exact h.pointed
  · exact h

theorem Attended.type (h : Attended w w' n) : (inodeOf w' n).type = (inodeOf w n).type := by
  obtain h | ⟨-, -, -, h⟩ := h
  · rw [h.inodeOf]
  · exact h

theorem Tended.trans (h : Tended w w') (hran : Ran w w') (h' : Tended w' w₂) (hran' : Ran w' w₂) : Tended w w₂ where
  lies := h'.lies
  each n hn := by
    have hn' : n ∈ known w' := hran.known ▸ hn
    have hpointed := (h.each n hn).pointed.trans (h'.each n hn').pointed
    have htype := (h'.each n hn').type.trans (h.each n hn).type
    obtain h₁ | ⟨hno, hyes, -⟩ := h.each n hn
    · obtain h₂ | ⟨hno', hyes', -⟩ := h'.each n hn'
      · exact .inl (h₁.trans h₂)
      · exact .inr ⟨fun hv => hno' (hran.visited n hv), hyes', hpointed, htype⟩
    · exact .inr ⟨hno, hran'.visited n hyes, hpointed, htype⟩
  frame y hy := by
    rw [h'.frame y fun n ht => ?_, h.frame y hy]
    have ht' := hran.has.mp ht
    rw [(h.each n ht'.known).pointed.holds]
    exact hy n ht'

/-- Nothing of what is not a directory of the table is written. -/
theorem Stray.tended {x : ℕ} (h : Stray w x) (hran : Ran w w') (htended : Tended w w') : Stray w' x := by
  obtain ⟨hfile, hdirectory, hheld⟩ := h
  have hinode : inodeOf w' x = inodeOf w x := congrArg Dinode.ofBlock (htended.frame _ hheld)
  rw [Stray, hinode]
  refine ⟨hfile, hdirectory, fun n ht => ?_⟩
  have ht' := hran.has.mp ht
  rw [(htended.each n ht'.known).pointed.holds]
  exact hheld n ht'

theorem Sound.tended {e : Direntry} (h : Sound w e) (hran : Ran w w') (htended : Tended w w') : Sound w' e := by
  obtain h | h := h
  · exact .inl (h.mono fun m hm => hran.known.symm ▸ hm)
  · exact .inr (h.tended hran htended)

theorem Dotted.tended {nd : ℕ} {d d' : ℕ → Direntry} (h : Dotted w nd d) (hd : ∀ k < nd, d' k = d k)
    (hran : Ran w w') (htended : Tended w w') : Dotted w' nd d' := by
  intro j hj k hk
  rw [hd j hj, hd k hk, hran.known]
  intro hone htwo hne hname hdots
  exact (h j hj k hk hone htwo hne hname hdots).imp_right fun h => h.tended hran htended

/-- What a part of the pass does, where `good` says that the pass can rely on what it relies on. -/
def Passes (good : Prop) (w w' : World) : Prop := Ran w w' ∧ (good → Tended w w')

theorem Passes.trans (h : Passes good w w') (h' : Passes good w' w₂) : Passes good w w₂ :=
  ⟨h.1.trans h'.1, fun hgood => (h.2 hgood).trans h.1 (h'.2 hgood) h'.1⟩

theorem Clean.tended (h : Clean w n) (huntouched : Untouched w w' n) (hran : Ran w w') (htended : Tended w w') :
    Clean w' n := by
  have hentry : ∀ k, entryOf (inodeOf w' n) w' k = entryOf (inodeOf w n) w k := by
    intro k
    rw [huntouched.inodeOf, huntouched.entryOf]
  constructor
  · intro k hk
    rw [huntouched.inodeOf] at hk
    rw [hentry]
    exact (h.sound k hk).tended hran htended
  · rw [huntouched.inodeOf]
    rw [huntouched.inodeOf] at hentry
    exact h.dotted.tended (fun k _ => hentry k) hran htended

/-- The pass can go on relying on what it relies on. -/
theorem Orderly.passes (h : Orderly w) (hran : Ran w w') (htended : Tended w w') : Orderly w' where
  lies := htended.lies
  sorted := hran.sortedTable h.sorted
  types n t ht := by
    have ht' := hran.has.mp ht
    rw [(htended.each n ht'.known).type, h.types n t ht']
  clean n ht hno := by
    have ht' := hran.has.mp ht
    obtain htouched | ⟨-, hyes, -⟩ := htended.each n ht'.known
    · exact (h.clean n ht' fun hv => hno (hran.visited n hv)).tended htouched hran htended
    · exact absurd hyes hno

/-- Why a part of the pass ends early. -/
def Faults (good : Prop) (e : Fatal) : Prop := e ≠ .unfinished ∧ (good → e ≠ .notFound ∧ e ≠ .wrongType)

/-- What merging leaves of the entries whose numbers are sorted in `v`: an entry is cleared, or it is renamed because
another one has its name. -/
def Merged (v : List ℕ) (d d' : ℕ → Direntry) : Prop := ∀ k, d' k = d k ∨ (d' k).ino = SFS_NOINO ∨
  (d' k).ino = (d k).ino ∧ k ∈ v ∧ ∃ k' ∈ v, (d k).ino ≠ SFS_NOINO ∧ (d k').ino ≠ SFS_NOINO ∧
    (d k).ino ≠ (d k').ino ∧ (d k).string = (d k').string

/-- An entry that is renamed so that it will be followed can be. -/
theorem Merged.sound {v : List ℕ} {d d' : ℕ → Direntry} {nd : ℕ} (h : Merged v d d') (hv : ∀ k ∈ v, k < nd)
    (hdotted : Dotted w nd d) (hd : ∀ k, Sound w (d k)) (k : ℕ) : Sound w (d' k) := by
  obtain hsame | hnone | ⟨hino, hk, k', hk', hone, htwo, hne, hname⟩ := h k
  · rw [hsame]
    exact hd k
  · exact .inl (.inl hnone)
  · have hdots : (d k).string = dot ∨ (d k).string = dotdot → (d k).ino ∈ known w ∨ Stray w (d k).ino :=
      hdotted k (hv k hk) k' (hv k' hk') hone htwo hne hname
    have hfollow : (d k).ino ∈ known w ∨ Stray w (d k).ino := by
      obtain (h | h | h | h) | h := hd k
      · exact absurd h hone
      · exact hdots (.inl h)
      · exact hdots (.inr h)
      · exact .inl h
      · exact .inr h
    rw [Sound, Harmless, hino]
    obtain h | h := hfollow
    · exact .inl (.inr (.inr (.inr h)))
    · exact .inr h

/-- A directory in memory as it is put right. -/
structure Prepared (sfi : Dinode) (n : ℕ) (w : World) (s : Dir) (w' : World) : Prop where
  quiet : Quiet w w'
  pointers : SamePointers sfi s.sfi
  type : s.sfi.type = sfi.type
  room : s.nd ≤ n

theorem Prepared.trans {n n' : ℕ} {s s' : Dir} (h : Prepared sfi n w s w') (h' : Prepared s.sfi n' w' s' w₂) :
    Prepared sfi n' w s' w₂ :=
  ⟨h.quiet.trans h'.quiet, h.pointers.trans h'.pointers, h'.type.trans h.type, h'.room⟩

theorem Prepared.weaken {n n' : ℕ} {s : Dir} (h : Prepared sfi n w s w') (hn : n ≤ n') : Prepared sfi n' w s w' :=
  ⟨h.quiet, h.pointers, h.type, Nat.le_trans h.room hn⟩

/-- A directory is written back: nothing but its own blocks and its inode change. -/
structure Rewritten (ino : ℕ) (w w' : World) : Prop where
  frame : ∀ y, ¬Holds w ino y → w'.disk y = w.disk y
  pointed : Pointed w w' ino
  type : (inodeOf w' ino).type = (inodeOf w ino).type

theorem Rewritten.trans (h : Rewritten ino w w') (h' : Rewritten ino w' w₂) : Rewritten ino w w₂ where
  frame y hy := by rw [h'.frame y fun hy' => hy ((h.pointed.holds y).mp hy'), h.frame y hy]
  pointed := h.pointed.trans h'.pointed
  type := h'.type.trans h.type

/-- Another inode is left alone. -/
theorem Rewritten.others (h : Rewritten ino w w') (hlies : Lies w) (hino : ino ∈ known w) (hm : m ∈ known w)
    (hne : m ≠ ino) : Untouched w w' m := by
  intro b hb
  rw [sector_small (hlies.inuse m hm b hb).2]
  exact h.frame b fun hb' => hne (hlies.apart m hm ino hino b hb hb')

theorem Rewritten.lies (h : Rewritten ino w w') (hstill : Still w w') (hlies : Lies w) (hino : ino ∈ known w) : Lies w' := by
  apply hlies.pointed (fun m => by rw [known_of_inodes hstill.inodes]) fun b => (hstill.inuse b).mpr
  intro m hm
  by_cases hne : m = ino
  · rw [hne]
    exact h.pointed
  · exact (h.others hlies hino hm hne).pointed

/-- What is known of an inode in memory that is to be written back. -/
structure Copied (ino : ℕ) (sfi : Dinode) (w : World) : Prop where
  lies : Lies w
  known : ino ∈ SfsckInodes.known w
  pointers : SamePointers (inodeOf w ino) sfi
  type : sfi.type = (inodeOf w ino).type

/-- A directory in memory that has been visited since `w`, and whose entries can be followed. -/
structure Open (good : Prop) (ino : ℕ) (s : Dir) (w w₁ : World) : Prop where
  passes : Passes good w w₁
  orderly : good → Orderly w ∧ Has w ino SFS_TYPE_DIR ∧ ¬Visited w ino
  visited : Visited w₁ ino
  sound : good → ∀ k, Sound w₁ (s.entries k)
  pointers : SamePointers (inodeOf w₁ ino) s.sfi
  type : s.sfi.type = (inodeOf w₁ ino).type
  room : s.nd + 7 < 2^32

end OS161.SfsckPass2
