import Mathlib.Data.Finset.Card
import Mathlib.Logic.Relation
import OS161.SfsckPass1

/-!
# The tree that the first pass of sfsck walks through

Every inode that an entry leads to is entered once, and its blocks and entries
are checked then. Where no block is used twice, what is checked of an inode is
not changed by what is done for another one, so that at the end every entry of
every directory on the disk names an inode that has been entered.
-/

set_option autoImplicit false

namespace OS161.SfsckTree

open Function OS161.Aborts OS161.Sfsck OS161.SfsckBlocks OS161.SfsckInodes OS161.SfsckDirectories OS161.SfsckPass1
open OS161.Sfs (Block maxBlocks)

/-- The entries that were followed lead from one inode to another. -/
def Leads (trail : List Event) : ℕ → ℕ → Prop := Relation.ReflTransGen fun a b => .link a b ∈ trail

variable {w w' w₁ w₂ w₃ : World} {r : Fatal → Prop} {n m t ino : ℕ} {sfi sfi' : Dinode}

theorem Leads.mono {trail trail' : List Event} {a b : ℕ} (h : Leads trail a b)
    (hlinks : ∀ a b, .link a b ∈ trail → .link a b ∈ trail') : Leads trail' a b :=
  Relation.ReflTransGen.mono hlinks _ _ h

/-- A block is the one of an inode or one that the inode leads to, as it is on the disk. -/
def Holds (w : World) (n b : ℕ) : Prop := Owned n (inodeOf w n) w b

/-- An entry that is not followed, or that names an inode in the table. -/
def Harmless (w : World) (e : Direntry) : Prop :=
  e.ino = SFS_NOINO ∨ e.string = dot ∨ e.string = dotdot ∨ e.ino ∈ known w

theorem Harmless.mono {e : Direntry} (h : Harmless w e) (hknown : ∀ n ∈ known w, n ∈ known w') : Harmless w' e :=
  h.imp_right fun h => h.imp_right fun h => h.imp_right (hknown _)

theorem Harmless.same {e e' : Direntry} (h : Harmless w e) (hsame : e'.Same e) : Harmless w e' := by
  unfold Harmless
  rw [hsame.1, hsame.2]
  exact h

/-- An inode is on the disk as the table has it, and all that it leads to is in the table. -/
structure Settled (w : World) (n t : ℕ) : Prop where
  type : (inodeOf w n).type = t
  entries : t = SFS_TYPE_DIR → ∀ k < (inodeOf w n).size / direntrySize, Harmless w (entryOf (inodeOf w n) w k)

/-- The blocks of an inode lie apart from its own block too. -/
structure Lodged (n : ℕ) (sfi : Dinode) (w : World) : Prop extends Placed sfi w where
  own : ∀ c, SfsckDirectories.bmapped sfi w c ≠ 0 → SfsckDirectories.bmapped sfi w c ≠ n
  ownIndirect : sfi.indirect ≠ 0 → sfi.indirect ≠ n

theorem Lodged.congr (h : Lodged n sfi w) (hindirect : sfi'.indirect = sfi.indirect)
    (hbmapped : bmapped sfi' w' = bmapped sfi w) : Lodged n sfi' w' where
  block := hbmapped ▸ h.block
  indirect := hindirect ▸ h.indirect
  distinct := hbmapped ▸ h.distinct
  apart := hindirect ▸ hbmapped ▸ h.apart
  own := hbmapped ▸ h.own
  ownIndirect := hindirect ▸ h.ownIndirect

/-- The inodes of the table lie on the disk apart from each other. -/
structure Lies (w : World) : Prop where
  inuse : ∀ n ∈ known w, ∀ b, Holds w n b → w.inUse b ∧ b < 2^23
  lodged : ∀ n ∈ known w, Lodged n (inodeOf w n) w
  apart : ∀ n ∈ known w, ∀ m ∈ known w, ∀ b, Holds w n b → Holds w m b → n = m

/-- An inode on the disk and the blocks that it leads to are found where they were. -/
structure Pointed (w w' : World) (n : ℕ) : Prop where
  indirect : (inodeOf w' n).indirect = (inodeOf w n).indirect
  bmapped : bmapped (inodeOf w' n) w' = bmapped (inodeOf w n) w

theorem Pointed.holds (h : Pointed w w' n) (b : ℕ) : Holds w' n b ↔ Holds w n b := by
  rw [Holds, Owned, h.indirect, h.bmapped]
  exact Iff.rfl

theorem Pointed.trans (h : Pointed w w' n) (h' : Pointed w' w₂ n) : Pointed w w₂ n :=
  ⟨h'.indirect.trans h.indirect, h'.bmapped.trans h.bmapped⟩

/-- Where all inodes are found where they were, they lie apart as before. -/
theorem Lies.pointed (h : Lies w) (hknown : ∀ n, n ∈ known w' ↔ n ∈ known w) (huse : ∀ b, w.inUse b → w'.inUse b)
    (hpointed : ∀ n ∈ known w, Pointed w w' n) : Lies w' where
  inuse n hn b hb := by
    have hn' := (hknown n).mp hn
    obtain ⟨hin, hlt⟩ := h.inuse n hn' b (((hpointed n hn').holds b).mp hb)
    exact ⟨huse b hin, hlt⟩
  lodged n hn := by
    have hn' := (hknown n).mp hn
    exact (h.lodged n hn').congr (hpointed n hn').indirect (hpointed n hn').bmapped
  apart n hn m hm b hb hb' := by
    have hn' := (hknown n).mp hn
    have hm' := (hknown m).mp hm
    exact h.apart n hn' m hm' b (((hpointed n hn').holds b).mp hb) (((hpointed m hm').holds b).mp hb')

/-- The blocks that an inode holds have not been written. -/
def Untouched (w w' : World) (n : ℕ) : Prop := ∀ b, Holds w n b → w'.disk (sector b) = w.disk (sector b)

theorem Untouched.inodeOf (h : Untouched w w' n) : inodeOf w' n = Sfsck.inodeOf w n :=
  congrArg Dinode.ofBlock (h n (.inl rfl))

theorem Untouched.bmapped (h : Untouched w w' n) :
    bmapped (Sfsck.inodeOf w n) w' = SfsckDirectories.bmapped (Sfsck.inodeOf w n) w :=
  bmapped_frame fun hne => h _ (.inr ⟨hne, .inl rfl⟩)

theorem Untouched.pointed (h : Untouched w w' n) : Pointed w w' n where
  indirect := by rw [h.inodeOf]
  bmapped := by rw [h.inodeOf, h.bmapped]

theorem Untouched.trans (h : Untouched w w' n) (h' : Untouched w' w₂ n) : Untouched w w₂ n := by
  intro b hb
  rw [h' b ((h.pointed.holds b).mpr hb), h b hb]

theorem Untouched.entryOf (h : Untouched w w' n) (k : ℕ) :
    entryOf (Sfsck.inodeOf w n) w' k = SfsckDirectories.entryOf (Sfsck.inodeOf w n) w k := by
  unfold SfsckDirectories.entryOf
  rw [h.bmapped]
  split_ifs with hzero
  · rfl
  · rw [h _ (.inr ⟨hzero, .inr ⟨_, rfl⟩⟩)]

theorem Settled.untouched (h : Settled w n t) (htouched : Untouched w w' n) (hknown : ∀ n ∈ known w, n ∈ known w') :
    Settled w' n t where
  type := by rw [htouched.inodeOf, h.type]
  entries htype k hk := by
    rw [htouched.inodeOf] at hk ⊢
    rw [htouched.entryOf]
    exact (h.entries htype k hk).mono hknown

/-- What checking an inode and what it leads to may change of the world. -/
structure Kept (w w' : World) : Prop where
  lies : Lies w'
  frame : ∀ b < 2^23, w.inUse b → w'.disk b = w.disk b
  fresh : ∀ n ∈ known w', n ∉ known w → ∀ b, Holds w' n b → ¬w.inUse b

theorem Kept.untouched (h : Kept w w') (hlies : Lies w) (hn : n ∈ known w) : Untouched w w' n := by
  intro b hb
  obtain ⟨hin, hlt⟩ := hlies.inuse n hn b hb
  rw [sector_small hlt]
  exact h.frame b hlt hin

/-- The table grows by inodes that are entered for an entry that leads to them. -/
structure Grown (w w' : World) : Prop where
  nblocks : w'.nblocks = w.nblocks
  has : ∀ n t, Has w n t → Has w' n t
  same : ∀ n t, n ∈ known w → Has w' n t → Has w n t
  links : ∀ a b, .link a b ∈ w.trail → .link a b ∈ w'.trail
  closed : ∀ a b, .link a b ∈ w'.trail → .link a b ∈ w.trail ∨ b ∈ known w'
  inuse : ∀ b, w.inUse b → w'.inUse b
  crosslinked : w.crosslinked → w'.crosslinked
  kept : ¬w'.crosslinked → SmallVolume w → Lies w → Kept w w'

theorem has_of_known (h : n ∈ known w) : ∃ t, Has w n t := by
  obtain ⟨inf, hmem, hino⟩ := List.mem_map.mp h
  exact ⟨inf.type, inf, hmem, hino, rfl⟩

theorem Grown.known (h : Grown w w') (hn : n ∈ known w) : n ∈ SfsckInodes.known w' := by
  obtain ⟨t, ht⟩ := has_of_known hn
  exact (h.has n t ht).known

theorem Grown.small (h : Grown w w') (hsmall : SmallVolume w) : SmallVolume w' := by
  unfold SmallVolume
  rw [h.nblocks]
  exact hsmall

theorem Grown.trans (h : Grown w w') (h' : Grown w' w₂) : Grown w w₂ where
  nblocks := h'.nblocks.trans h.nblocks
  has n t ht := h'.has n t (h.has n t ht)
  same n t hn ht := h.same n t hn (h'.same n t (h.known hn) ht)
  links a b hab := h'.links a b (h.links a b hab)
  closed a b hab := by
    obtain hold | hnew := h'.closed a b hab
    · exact (h.closed a b hold).imp_right fun hb => h'.known hb
    · exact .inr hnew
  inuse b hb := h'.inuse b (h.inuse b hb)
  crosslinked hw := h'.crosslinked (h.crosslinked hw)
  kept hlinks hsmall hlies := by
    have hkept := h.kept (fun hw => hlinks (h'.crosslinked hw)) hsmall hlies
    have hkept' := h'.kept hlinks (h.small hsmall) hkept.lies
    refine ⟨hkept'.lies, ?_, ?_⟩
    · intro b hb huse
      rw [hkept'.frame b hb (h.inuse b huse), hkept.frame b hb huse]
    · intro n hn hnew b hb huse
      by_cases hold : n ∈ SfsckInodes.known w'
      · have hpointed := (hkept'.untouched hkept.lies hold).pointed
        exact hkept.fresh n hold hnew b ((hpointed.holds b).mp hb) huse
      · exact hkept'.fresh n hn hold b hb (h.inuse b huse)

theorem known_of_inodes (h : w'.inodes = w.inodes) : known w' = known w := by
  rw [known, known, h]

theorem Grown.still (h : Grown w w₁) (hstill : Still w₁ w')
    (hkept : ¬w'.crosslinked → SmallVolume w → Lies w → Kept w w') : Grown w w' where
  nblocks := hstill.nblocks.trans h.nblocks
  has n t ht := by
    rw [Has, hstill.inodes]
    exact h.has n t ht
  same n t hn ht := by
    rw [Has, hstill.inodes] at ht
    exact h.same n t hn ht
  links a b hab := by
    rw [hstill.trail]
    exact h.links a b hab
  closed a b hab := by
    rw [hstill.trail] at hab
    rw [known_of_inodes hstill.inodes]
    exact h.closed a b hab
  inuse b hb := (hstill.inuse b).mpr (h.inuse b hb)
  crosslinked hw := hstill.crosslinked (h.crosslinked hw)
  kept := hkept

/-- What a part of the pass does that leaves no inode behind whose entries it has not followed. -/
structure Toured (w w' : World) : Prop extends Grown w w' where
  settled : ¬w'.crosslinked → SmallVolume w → Lies w → ∀ n t, Has w' n t → n ∉ SfsckInodes.known w → Settled w' n t

theorem Toured.trans (h : Toured w w') (h' : Toured w' w₂) : Toured w w₂ where
  toGrown := h.toGrown.trans h'.toGrown
  settled hlinks hsmall hlies n t ht hnew := by
    have hlinks' : ¬w'.crosslinked := fun hw => hlinks (h'.crosslinked hw)
    have hkept := h.kept hlinks' hsmall hlies
    have hkept' := h'.kept hlinks (h.small hsmall) hkept.lies
    by_cases hold : n ∈ SfsckInodes.known w'
    · have hsettled := h.settled hlinks' hsmall hlies n t (h'.same n t hold ht) hnew
      exact hsettled.untouched (hkept'.untouched hkept.lies hold) fun m hm => h'.toGrown.known hm
    · exact h'.settled hlinks (h.small hsmall) hkept.lies n t ht hold

/-- The inodes of the table are those that entries lead to from the root, and each has been checked once. -/
structure Tally (w : World) : Prop where
  distinct : (known w).Nodup
  blocks : ∀ n, w.trail.count (.blocks n) = (known w).count n
  entries : ∀ n, w.trail.count (.entries n) = (typed w).count (n, SFS_TYPE_DIR)
  processed : ∀ n, .processed n ∉ w.trail
  unvisited : ∀ inf ∈ w.inodes, inf.visited = false
  reached : ∀ n ∈ known w, Leads w.trail SFS_ROOTDIR_INO n

theorem Tally.congr (h : Tally w) (hinodes : w'.inodes = w.inodes) (htrail : w'.trail = w.trail) : Tally w' where
  distinct := by rw [known_of_inodes hinodes]; exact h.distinct
  blocks n := by rw [htrail, known_of_inodes hinodes]; exact h.blocks n
  entries n := by rw [htrail, typed, hinodes]; exact h.entries n
  processed n := by rw [htrail]; exact h.processed n
  unvisited := by rw [hinodes]; exact h.unvisited
  reached n := by rw [htrail, known_of_inodes hinodes]; exact h.reached n

/-- Following an entry is noted. -/
theorem Tally.link (h : Tally w) (a b : ℕ) (hinodes : w'.inodes = w.inodes) (htrail : w'.trail = w.trail ++ [.link a b]) :
    Tally w' where
  distinct := by rw [known_of_inodes hinodes]; exact h.distinct
  blocks n := by rw [htrail, known_of_inodes hinodes, ← h.blocks n]; simp
  entries n := by rw [htrail, typed, hinodes, ← typed, ← h.entries n]; simp
  processed n := by rw [htrail]; simpa using h.processed n
  unvisited := by rw [hinodes]; exact h.unvisited
  reached n hn := by
    rw [known_of_inodes hinodes] at hn
    rw [htrail]
    exact (h.reached n hn).mono fun a b hab => List.mem_append_left _ hab

/-- The events of checking an inode of a type that has just been entered. -/
def checks (ino type : ℕ) : List Event :=
  if type = SFS_TYPE_DIR then [.blocks ino, .entries ino] else [.blocks ino]

theorem Tally.enter (h : Tally w) (hnew : ino ∉ known w) (hreached : Leads w.trail SFS_ROOTDIR_INO ino)
    (hinodes : w'.inodes = w.inodes ++ [⟨ino, 0, false, t⟩]) (htrail : w'.trail = w.trail ++ checks ino t) :
    Tally w' := by
  have hknown : known w' = known w ++ [ino] := by simp [known, hinodes]
  have htyped : typed w' = typed w ++ [(ino, t)] := by simp [typed, hinodes]
  refine ⟨?_, ?_, ?_, ?_, ?_, ?_⟩
  · rw [hknown, List.nodup_append]
    refine ⟨h.distinct, List.nodup_singleton ino, ?_⟩
    intro a ha b hb hab
    rw [List.mem_singleton] at hb
    exact hnew (hb ▸ hab ▸ ha)
  · intro n
    rw [htrail, hknown, List.count_append, List.count_append, h.blocks n, checks]
    split_ifs <;> simp [List.count_cons]
  · intro n
    rw [htrail, htyped, List.count_append, List.count_append, h.entries n, checks]
    split_ifs with hdir <;> simp [List.count_cons, hdir]
  · intro n hn
    rw [htrail, checks] at hn
    obtain hn | hn := List.mem_append.mp hn
    · exact h.processed n hn
    · split_ifs at hn <;> simp at hn
  · intro inf hinf
    rw [hinodes] at hinf
    obtain hinf | hinf := List.mem_append.mp hinf
    · exact h.unvisited inf hinf
    · rw [List.mem_singleton.mp hinf]
  · intro n hn
    rw [hknown] at hn
    rw [htrail]
    have hmono : ∀ {m}, Leads w.trail SFS_ROOTDIR_INO m → Leads (w.trail ++ checks ino t) SFS_ROOTDIR_INO m :=
      fun hm => hm.mono fun a b hab => List.mem_append_left _ hab
    obtain hn | hn := List.mem_append.mp hn
    · exact hmono (h.reached n hn)
    · rw [List.mem_singleton.mp hn]
      exact hmono hreached

variable {alreadychanged : Bool}

/-- The world after an event. -/
def noted (e : Event) (w : World) : World := { w with trail := w.trail ++ [e] }

/-- The inode that an entry is followed to is entered. -/
theorem Toured.link {a b : ℕ} (h : Toured (noted (.link a b) w) w') (hb : b ∈ known w') : Toured w w' where
  nblocks := h.nblocks
  has := h.has
  same := h.same
  links a b hab := h.links a b (List.mem_append_left _ hab)
  closed a' b' hab := by
    obtain hab | hnew := h.closed a' b' hab
    · obtain hab | hab := List.mem_append.mp hab
      · exact .inl hab
      · simp only [List.mem_singleton, Event.link.injEq] at hab
        exact .inr (hab.2 ▸ hb)
    · exact .inr hnew
  inuse := h.inuse
  crosslinked := h.crosslinked
  kept hlinks hsmall hlies := by
    have hkept := h.kept hlinks hsmall (hlies.pointed (fun _ => Iff.rfl) (fun _ => id) fun _ _ => ⟨rfl, rfl⟩)
    exact ⟨hkept.lies, hkept.frame, hkept.fresh⟩
  settled hlinks hsmall hlies :=
    h.settled hlinks hsmall (hlies.pointed (fun _ => Iff.rfl) (fun _ => id) fun _ _ => ⟨rfl, rfl⟩)

/-- The inodes that have not been entered yet. -/
def unseen (w : World) : Finset ℕ := Finset.range (w.nblocks + 2) \ (known w).toFinset

theorem Grown.unseen (h : Grown w w') : (SfsckTree.unseen w').card ≤ (SfsckTree.unseen w).card := by
  apply Finset.card_le_card
  unfold SfsckTree.unseen
  rw [h.nblocks]
  apply Finset.sdiff_subset_sdiff (Finset.Subset.refl _)
  intro n hn
  rw [List.mem_toFinset] at hn ⊢
  exact h.known hn

/-- A directory that an entry has been followed to. -/
structure Ready (fuel ino : ℕ) (w : World) : Prop where
  tally : Tally w
  reached : Leads w.trail SFS_ROOTDIR_INO ino
  range : ino = SFS_ROOTDIR_INO ∨ ino < w.nblocks
  type : (inodeOf w ino).type = SFS_TYPE_DIR
  fuel : (unseen w).card < fuel

/-- What the recursion does for a directory. -/
def Visits (fuel : ℕ) (dir : ℕ → Check Unit) : Prop := ∀ ino w, Ready fuel ino w →
  Ends (· ≠ .unfinished) (dir ino) w (fun _ w' => Tally w' ∧ Toured w w' ∧ Has w' ino SFS_TYPE_DIR)

theorem entryOf_alike (h : Alike sfi sfi') (w : World) (k : ℕ) : entryOf sfi w k = entryOf sfi' w k := by
  rw [entryOf, entryOf, bmapped_pointers h.pointers]

section Written

variable {d : ℕ → Direntry} {nd k : ℕ}

/-- Writing a directory leaves alone what other inodes hold. -/
theorem written_others (h : Written sfi d nd k w w') (hlies : Lies w) (hn : n ∈ known w)
    (hsame : SamePointers (inodeOf w n) sfi) (hm : m ∈ known w) (hne : m ≠ n) : Untouched w w' m := by
  intro b hb
  rw [sector_small (hlies.inuse m hm b hb).2]
  apply h.others
  intro c _ hc hcb
  rw [← bmapped_pointers hsame] at hc hcb
  exact hne (hlies.apart m hm n hn b hb (.inr ⟨hcb ▸ hc, .inr ⟨c, hcb⟩⟩))

/-- Writing a directory leaves its inode alone. -/
theorem written_inode (h : Written sfi d nd k w w') (hlies : Lies w) (hn : n ∈ known w)
    (hsame : SamePointers (inodeOf w n) sfi) : inodeOf w' n = inodeOf w n := by
  unfold inodeOf
  rw [sector_small (hlies.inuse n hn n (.inl rfl)).2, h.others]
  intro c _ hc
  rw [← bmapped_pointers hsame] at hc ⊢
  exact (hlies.lodged n hn).own c hc

theorem placed_pointers (hlies : Lies w) (hn : n ∈ known w) (hsame : SamePointers (inodeOf w n) sfi) : Placed sfi w :=
  ((hlies.lodged n hn).congr hsame.indirect.symm (bmapped_pointers hsame w).symm).toPlaced

theorem written_pointed (h : Written sfi d nd k w w') (hlies : Lies w) (hn : n ∈ known w)
    (hsame : SamePointers (inodeOf w n) sfi) : Pointed w w' n where
  indirect := by rw [written_inode h hlies hn hsame]
  bmapped := by
    rw [written_inode h hlies hn hsame, bmapped_pointers hsame w', bmapped_pointers hsame w]
    exact h.bmapped (placed_pointers hlies hn hsame)

/-- Writing a directory moves no inode. -/
theorem written_lies (h : Written sfi d nd k w w') (hlies : Lies w) (hn : n ∈ known w)
    (hsame : SamePointers (inodeOf w n) sfi) : Lies w' := by
  apply hlies.pointed (fun m => by rw [known_of_inodes h.inodes]) fun b => (h.inuse b).mpr
  intro m hm
  by_cases hne : m = n
  · rw [hne]
    exact written_pointed h hlies hn hsame
  · exact (written_others h hlies hn hsame hm hne).pointed

/-- A directory that has been written has the entries that it had in memory, or none where there is no block. -/
theorem written_settled (h : Written sfi d nd ((nd + 7) / 8) w w') (hlies : Lies w) (hn : n ∈ known w)
    (halike : Alike (inodeOf w n) sfi) (htype : sfi.type = SFS_TYPE_DIR) (hnd : nd = sfi.size / direntrySize)
    (hd : ∀ k < nd, Harmless w (d k)) : Settled w' n SFS_TYPE_DIR := by
  have hinode := written_inode h hlies hn halike.pointers
  have hplaced := placed_pointers hlies hn halike.pointers
  refine ⟨?_, fun _ k hk => ?_⟩
  · rw [hinode, halike.type, htype]
  · rw [hinode, halike.size, ← hnd] at hk
    rw [hinode, entryOf_alike halike]
    by_cases hblock : bmapped sfi w (k / atonce) = 0
    · have hempty : entryOf sfi w' k = emptyEntry := by rw [entryOf, h.bmapped hplaced, if_pos hblock]
      rw [hempty]
      exact .inl rfl
    · apply ((hd k hk).mono fun m hm => ?_).same (h.entryOf hplaced hk hblock)
      rw [known_of_inodes h.inodes]
      exact hm

/-- Writing a directory that has been entered since keeps what the table had. -/
theorem Kept.written (hkept : Kept w w₁) (h : Written sfi d nd k w₁ w') (hn : n ∈ known w₁) (hnew : n ∉ known w)
    (hsame : SamePointers (inodeOf w₁ n) sfi) : Kept w w' where
  lies := written_lies h hkept.lies hn hsame
  frame b hb huse := by
    rw [← hkept.frame b hb huse]
    apply h.others
    intro c _ hc hcb
    rw [← bmapped_pointers hsame] at hc hcb
    exact hkept.fresh n hn hnew b (.inr ⟨hcb ▸ hc, .inr ⟨c, hcb⟩⟩) huse
  fresh m hm hold b hb := by
    rw [known_of_inodes h.inodes] at hm
    by_cases hne : m = n
    · rw [hne] at hb
      exact hkept.fresh n hn hnew b (((written_pointed h hkept.lies hn hsame).holds b).mp hb)
    · have hpointed := (written_others h hkept.lies hn hsame hm hne).pointed
      exact hkept.fresh m hm hold b ((hpointed.holds b).mp hb)

end Written

/-- A directory in memory whose entries have been followed: `w` is before it was entered. -/
structure Followed (ino : ℕ) (sfi : Dinode) (w : World) (s : Walk) (w' : World) : Prop where
  grown : Grown w w'
  tally : Tally w'
  unknown : ino ∉ known w
  has : Has w' ino SFS_TYPE_DIR
  type : sfi.type = SFS_TYPE_DIR
  others : ¬w'.crosslinked → SmallVolume w → Lies w → ∀ n t, Has w' n t → n ∉ known w → n ≠ ino → Settled w' n t
  alike : ¬w'.crosslinked → SmallVolume w → Lies w → Alike (inodeOf w' ino) sfi
  harmless : ∀ k < sfi.size / direntrySize, Harmless w' (s.entries k)
  stored : s.changed = false → ¬w'.crosslinked → SmallVolume w → Lies w →
    ∀ k < sfi.size / direntrySize, entryOf sfi w' k = s.entries k

theorem Tally.types (h : Tally w) {t t' : ℕ} (ht : Has w n t) (ht' : Has w n t') : t = t' := by
  obtain ⟨inf, hmem, hino, rfl⟩ := ht
  obtain ⟨inf', hmem', hino', rfl⟩ := ht'
  rw [List.inj_on_of_nodup_map h.distinct hmem hmem' (hino.trans hino'.symm)]

/-- The directory is written if it has been changed, and it is settled then too. -/
theorem Followed.finish {s : Walk} (h : Followed ino sfi w s w') : Ends (· ≠ .unfinished)
    (onlyIf (s.changed = true) (sfsWritedir sfi s.entries (sfi.size / direntrySize))) w' (fun _ w'' =>
      Tally w'' ∧ Toured w w'' ∧ Has w'' ino SFS_TYPE_DIR) := by
  have hnd : sfi.size / direntrySize + 7 < 2^32 := by
    have := sfi.size_lt
    unfold direntrySize
    omega
  have hino : ino ∈ known w' := h.has.known
  rw [ends_onlyIf]
  constructor
  · intro _
    have hsame : ∀ {w''}, Still w' w'' → Tally w'' ∧ Has w'' ino SFS_TYPE_DIR := by
      intro w'' hstill
      refine ⟨h.tally.congr hstill.inodes hstill.trail, ?_⟩
      rw [Has, hstill.inodes]
      exact h.has
    -- what is written goes where it belongs only if no block is used twice
    by_cases hgood : ¬w'.crosslinked ∧ SmallVolume w ∧ Lies w
    · obtain ⟨hlinks, hsmall, hlies⟩ := hgood
      have hkept := h.grown.kept hlinks hsmall hlies
      have halike := h.alike hlinks hsmall hlies
      apply (sfsWritedir_writes Fatal.io_ne hnd (placed_pointers hkept.lies hino halike.pointers) s.entries).imp
      intro _ w'' hwritten
      have hgrown : Grown w w'' := h.grown.still hwritten.toStill fun _ _ _ =>
        hkept.written hwritten hino h.unknown halike.pointers
      refine ⟨(hsame hwritten.toStill).1, ⟨hgrown, ?_⟩, (hsame hwritten.toStill).2⟩
      intro _ _ _ n t ht hnew
      have ht' : Has w' n t := by
        rw [Has, ← hwritten.inodes]
        exact ht
      by_cases hne : n = ino
      · subst hne
        rw [h.tally.types ht' h.has]
        exact written_settled hwritten hkept.lies hino halike h.type rfl h.harmless
      · have huntouched := written_others hwritten hkept.lies hino halike.pointers ht'.known hne
        apply (h.others hlinks hsmall hlies n t ht' hnew hne).untouched huntouched
        intro m hm
        rw [known_of_inodes hwritten.inodes]
        exact hm
    · apply (sfsWritedir_still Fatal.io_ne sfi s.entries _).imp
      intro _ w'' hstill
      have hno : ¬w''.crosslinked → SmallVolume w → Lies w → False := fun hlinks hsmall hlies =>
        hgood ⟨fun hw => hlinks (hstill.crosslinked hw), hsmall, hlies⟩
      exact ⟨(hsame hstill).1, ⟨h.grown.still hstill fun h₁ h₂ h₃ => (hno h₁ h₂ h₃).elim,
        fun h₁ h₂ h₃ => (hno h₁ h₂ h₃).elim⟩, (hsame hstill).2⟩
  · intro hchanged
    refine ⟨h.tally, ⟨h.grown, ?_⟩, h.has⟩
    intro hlinks hsmall hlies n t ht hnew
    by_cases hne : n = ino
    · subst hne
      rw [h.tally.types ht h.has]
      have halike := h.alike hlinks hsmall hlies
      refine ⟨halike.type.trans h.type, fun _ k hk => ?_⟩
      rw [halike.size] at hk
      rw [entryOf_alike halike, h.stored (by simpa using hchanged) hlinks hsmall hlies k hk]
      exact h.harmless k hk
    · exact h.others hlinks hsmall hlies n t ht hnew hne

/-- A world in which nothing has been entered yet. -/
structure Fresh (w : World) : Prop where
  inodes : w.inodes = []
  trail : w.trail = []

theorem Fresh.tally (h : Fresh w) : Tally w where
  distinct := by simp [known, h.inodes]
  blocks n := by simp [known, h.inodes, h.trail]
  entries n := by simp [typed, h.inodes, h.trail]
  processed n := by simp [h.trail]
  unvisited := by simp [h.inodes]
  reached := by simp [known, h.inodes]

theorem Fresh.lies (h : Fresh w) : Lies w where
  inuse := by simp [known, h.inodes]
  lodged := by simp [known, h.inodes]
  apart := by simp [known, h.inodes]

/-- What the first pass leaves: everything that entries lead to has been checked once. -/
structure Checked (w w' : World) : Prop where
  tally : Tally w'
  root : Has w' SFS_ROOTDIR_INO SFS_TYPE_DIR
  closed : ∀ a b, .link a b ∈ w'.trail → b ∈ known w'
  toured : ∃ w₁, Still w w₁ ∧ Fresh w₁ ∧ Toured w₁ w'

end OS161.SfsckTree
