import OS161.SfsckFreemap
import OS161.SfsckPass2

/-!
# Runs of sfsck

In its first phase the program goes through the first pass, and then puts the
map on the disk right. In the second it sorts the table of inodes and goes
through the second pass, which relies on what the first phase leaves of the
disk.
-/

set_option autoImplicit false

namespace OS161.SfsckRun

open Function OS161.Aborts OS161.Sfsck OS161.SfsckInodes OS161.SfsckDirectories OS161.SfsckPass1
open OS161.SfsckTree OS161.SfsckFreemap OS161.SfsckPass2
open OS161.Sfs (zeros)

/-- The program after it has loaded the superblock of a volume. -/
def loaded (w : World) : World := { w with
  findings := ⟨Freemap.empty, 0, w.findings.badness, []⟩
  inodes := []
  maxinodes := 0
  inodesSorted := false
  uniquecounter := 0
  trail := [] }

def phase1 : Check Unit := do
  freemapSetup
  pass1
  freemapCheck

def phase2 (q : Qsort) : Check Unit := do
  inodeSorttable q
  pass2 q

/-- An entry of one inode, other than "." and "..", names another on the disk. -/
def Names (w : World) (a b : ℕ) : Prop := (inodeOf w a).type = SFS_TYPE_DIR ∧
  ∃ k < (inodeOf w a).size / direntrySize, (entryOf (inodeOf w a) w k).ino = b ∧ b ≠ SFS_NOINO ∧
    (entryOf (inodeOf w a) w k).string ≠ dot ∧ (entryOf (inodeOf w a) w k).string ≠ dotdot

variable {w w' w₀ w₁ w₂ : World} {n t : ℕ} {q : Qsort}

/-- What the first phase leaves. -/
structure Passed1 (w : World) : Prop where
  tally : Tally w
  root : Has w SFS_ROOTDIR_INO SFS_TYPE_DIR
  leads : ∀ n, n ∈ known w ↔ Leads w.trail SFS_ROOTDIR_INO n
  settled : ¬w.crosslinked → SmallVolume w → Lies w ∧ ∀ n t, Has w n t → Settled w n t

/-- The checks of an inode of the table. -/
theorem Passed1.counts (h : Passed1 w) (hn : n ∈ known w) :
    w.trail.count (.blocks n) = 1 ∧ (Has w n SFS_TYPE_DIR → w.trail.count (.entries n) = 1) := by
  have htyped : (typed w).Nodup := List.Nodup.of_map Prod.fst (known_typed w ▸ h.tally.distinct)
  refine ⟨?_, fun ht => ?_⟩
  · rw [h.tally.blocks, List.count_eq_one_of_mem h.tally.distinct hn]
  · rw [h.tally.entries, List.count_eq_one_of_mem htyped (has_typed.mp ht)]

theorem Passed1.nothing (h : Passed1 w) (hn : n ∉ known w) :
    w.trail.count (.blocks n) = 0 ∧ w.trail.count (.entries n) = 0 := by
  refine ⟨?_, ?_⟩
  · rw [h.tally.blocks, List.count_eq_zero_of_not_mem hn]
  · rw [h.tally.entries]
    apply List.count_eq_zero_of_not_mem
    exact fun hmem => hn (has_typed.mpr hmem).known

/-- A table that has been sorted has the same inodes, none of them marked. -/
structure Ordered (w w' : World) : Prop where
  sorted : Sorted w'
  typed : (typed w').Perm (typed w)
  unvisited : ∀ inf ∈ w'.inodes, inf.visited = false
  trail : w'.trail = w.trail
  disk : w'.disk = w.disk
  inuse : ∀ b, w'.inUse b ↔ w.inUse b

theorem Ordered.has (h : Ordered w w') : Has w' n t ↔ Has w n t := by
  rw [has_typed, has_typed, h.typed.mem_iff]

theorem Ordered.known (h : Ordered w w') : n ∈ known w' ↔ n ∈ known w := by
  rw [known_typed, known_typed, (h.typed.map Prod.fst).mem_iff]

/-- Before the second pass nothing is marked, and no directory has been processed. -/
theorem Ordered.fresh (h : Ordered w w') (htally : Tally w) (n : ℕ) :
    visits w' n = 0 ∧ w'.trail.count (.processed n) = 0 := by
  constructor
  · rw [visits, List.countP_eq_zero]
    intro inf hinf
    simp [h.unvisited inf hinf]
  · rw [h.trail, List.count_eq_zero]
    exact htally.processed n

/-- What pass 2 relies on: no block is used twice, every block has a place of its own, and a "." or ".." that might be
renamed can be followed. -/
structure Regular (w : World) : Prop where
  single : ¬w.crosslinked
  small : SmallVolume w
  dotted : ∀ n, Has w n SFS_TYPE_DIR → Dotted w ((inodeOf w n).size / direntrySize) (entryOf (inodeOf w n) w)

theorem Ordered.stray {x : ℕ} (h : Ordered w w') (hx : Stray w x) : Stray w' x := by
  have hinode : inodeOf w' x = inodeOf w x := by rw [inodeOf, h.disk, ← inodeOf]
  obtain ⟨hfile, hdirectory, hheld⟩ := hx
  rw [Stray, hinode]
  refine ⟨hfile, hdirectory, fun n ht => ?_⟩
  have hpointed : Pointed w w' n := Untouched.pointed fun _ _ => congrFun h.disk _
  rw [hpointed.holds]
  exact hheld n (h.has.mp ht)

/-- Sorting the table keeps what pass 2 relies on. -/
theorem Ordered.orderly (h : Ordered w w') (hpassed : Passed1 w) (hregular : Regular w) : Orderly w' := by
  obtain ⟨hlies, hsettled⟩ := hpassed.settled hregular.single hregular.small
  have huntouched : ∀ n, Untouched w w' n := fun n _ _ => congrFun h.disk _
  refine ⟨hlies.pointed (fun n => h.known) (fun b => (h.inuse b).mpr) fun n _ => (huntouched n).pointed, h.sorted, ?_, ?_⟩
  · intro n t ht
    rw [(huntouched n).inodeOf]
    exact (hsettled n t (h.has.mp ht)).type
  · intro n ht _
    have ht' := h.has.mp ht
    constructor
    · intro k hk
      rw [(huntouched n).inodeOf] at hk ⊢
      rw [(huntouched n).entryOf]
      exact .inl (((hsettled n _ ht').entries rfl k hk).mono fun m hm => h.known.mpr hm)
    · rw [(huntouched n).inodeOf]
      intro j hj k hk
      rw [(huntouched n).entryOf, (huntouched n).entryOf]
      intro hone htwo hne hname hdots
      exact (hregular.dotted n ht' j hj k hk hone htwo hne hname hdots).imp h.known.mpr h.stray

end OS161.SfsckRun
