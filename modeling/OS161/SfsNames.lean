import Mathlib.Data.Finset.Card
import OS161.SfsSound

/-!
# Names and links of a volume

The root directory names files only, each name once, and the link count of a file
is the number of its names. An inode in memory is the one on the disk unless it is
marked dirty. Every change to a volume keeps this, but for the entry that has been
made or cleared before the link count follows.
-/

set_option autoImplicit false

namespace OS161.SfsVolume

open Function OS161.Vfs OS161.CopyInOut OS161.FirstFit OS161.Sfs OS161.SfsTruncate OS161.SfsOwnership OS161.SfsDir OS161.References
open OS161.Sfsck (SFS_ROOTDIR_INO SFS_TYPE_FILE SFS_TYPE_DIR SFS_NOINO Dinode Alike ofBlock_toBlock half_bytes)

/-- How many entries name an inode. -/
def links (D : ℕ → Option (Name × ℕ)) (i : ℕ) : ℕ :=
  ((Finset.range (8 * maxBlocks)).filter fun k => (D k).map Prod.snd = some i).card

/-- Two inodes with the same contents, but for the bytes that nothing uses. -/
structure Equal (d d' : Dinode) : Prop where
  alike : Alike d d'
  linkcount : d.linkcount = d'.linkcount

/-- What the directory and the link counts say agrees, but the count of inode `i`
is still to grow by `a` and to shrink by `b`. -/
structure Names (i a b : ℕ) (s : Volume) : Prop where
  listing : Listing (fileOf s SFS_ROOTDIR_INO)
  rootType : (inodeOf s SFS_ROOTDIR_INO).type = SFS_TYPE_DIR
  rootLinked : (inodeOf s SFS_ROOTDIR_INO).linkcount ≠ 0
  files : ∀ j, Present s j → j ≠ SFS_ROOTDIR_INO → (inodeOf s j).type = SFS_TYPE_FILE
  counts : ∀ j, Present s j → j ≠ SFS_ROOTDIR_INO → j ≠ i → (inodeOf s j).linkcount = links (dir s) j
  owed : i ≠ SFS_ROOTDIR_INO → Present s i → (inodeOf s i).linkcount + a = links (dir s) i + b
  notRoot : ∀ k n j, dir s k = some (n, j) → j ≠ SFS_ROOTDIR_INO

/-- An inode that is not marked is the one on the disk. -/
def Clean (s : Volume) : Prop := ∀ v ∈ s.vnodes, s.dirty v = false → Equal (.ofBlock (s.disk (s.ino v))) (s.core v)

structure Sound (i a b : ℕ) (s : Volume) : Prop where
  blocks : Blocks s
  names : Names i a b s
  clean : Clean s

variable {w w' : World} {d d' : Dinode} {s s' : Volume} {m : UserMemory} {a b e g i j k n v : ℕ} {name : Name}
  {D : ℕ → Option (Name × ℕ)}

theorem Equal.refl (d : Dinode) : Equal d d := ⟨.refl d, rfl⟩

theorem Names.exact (h : Names i 0 0 s) (hj : Present s j) (hroot : j ≠ SFS_ROOTDIR_INO) :
    (inodeOf s j).linkcount = links (dir s) j := by
  by_cases hji : j = i
  · subst hji
    simpa using h.owed hroot hj
  · exact h.counts j hj hroot hji

/-- Nothing is owed to any inode then. -/
theorem Names.any (h : Names i 0 0 s) (j : ℕ) : Names j 0 0 s :=
  ⟨h.listing, h.rootType, h.rootLinked, h.files, fun _ hp hroot _ => h.exact hp hroot,
    fun hroot hp => congrArg (· + 0) (h.exact hp hroot), h.notRoot⟩

theorem Sound.any (h : Sound i 0 0 s) (j : ℕ) : Sound j 0 0 s := ⟨h.blocks, h.names.any j, h.clean⟩

/-! Counting entries. -/

theorem links_le (D : ℕ → Option (Name × ℕ)) (i : ℕ) : links D i ≤ 8 * maxBlocks := by
  unfold links
  exact (Finset.card_filter_le _ _).trans (Finset.card_range _).le

theorem links_pos (hk : k < 8 * maxBlocks) (hD : D k = some (name, i)) : 0 < links D i := by
  unfold links
  exact Finset.card_pos.mpr ⟨k, by simp [hk, hD]⟩

theorem links_named (h : links D i ≠ 0) : ∃ k n, D k = some (n, i) := by
  unfold links at h
  obtain ⟨k, hk⟩ := Finset.card_pos.mp (Nat.pos_of_ne_zero h)
  obtain ⟨-, hmap⟩ := Finset.mem_filter.mp hk
  obtain ⟨⟨n, j⟩, hD, rfl⟩ := Option.map_eq_some_iff.mp hmap
  exact ⟨k, n, hD⟩

theorem links_enter (hk : k < 8 * maxBlocks) (hfree : D k = none) (j : ℕ) :
    links (update D k (some (name, i))) j = links D j + if j = i then 1 else 0 := by
  unfold links
  by_cases hj : j = i
  · subst hj
    have hset : (Finset.range (8 * maxBlocks)).filter (fun l => (update D k (some (name, j)) l).map Prod.snd = some j) =
        insert k ((Finset.range (8 * maxBlocks)).filter fun l => (D l).map Prod.snd = some j) := by
      ext l
      by_cases hl : l = k
      · subst hl
        simp [hk]
      · simp [hl]
    rw [if_pos rfl, hset, Finset.card_insert_of_notMem (by simp [hfree])]
  · have hset : (Finset.range (8 * maxBlocks)).filter (fun l => (update D k (some (name, i)) l).map Prod.snd = some j) =
        (Finset.range (8 * maxBlocks)).filter fun l => (D l).map Prod.snd = some j := by
      ext l
      by_cases hl : l = k
      · subst hl
        simp [hfree, Ne.symm hj]
      · simp [update_of_ne hl]
    rw [if_neg hj, Nat.add_zero, hset]

theorem links_clear (hk : k < 8 * maxBlocks) (hD : D k = some (name, i)) (j : ℕ) :
    links (update D k none) j + (if j = i then 1 else 0) = links D j := by
  have henter : links (update (update D k none) k (some (name, i))) j = _ := links_enter hk (update_self ..) j
  rw [update_idem, show update D k (some (name, i)) = D by rw [← hD, update_eq_self]] at henter
  exact henter.symm

theorem dir_lt (h : Listing (fileOf s SFS_ROOTDIR_INO)) (hk : dir s k ≠ none) : k < 8 * maxBlocks :=
  Nat.lt_of_lt_of_le (entries_lt hk) h.slots_le

/-! A change to what is in memory only. -/

theorem sameFile_refl (x : World) : SameFile x x := ⟨rfl, rfl, fun _ _ => rfl⟩

/-- The volume is the same, and each inode is. -/
structure SameInodes (s s' : Volume) : Prop where
  freemap : ∀ e < s.nbits, s'.freemap e = s.freemap e
  nbits : s'.nbits = s.nbits
  nblocks : s'.nblocks = s.nblocks
  dBlocks : s'.dBlocks = s.dBlocks
  present : ∀ i, Present s' i ↔ Present s i
  files : ∀ i, Present s i → SameFile (fileOf s i) (fileOf s' i)
  alike : ∀ i, Present s i → Alike (inodeOf s' i) (inodeOf s i)

theorem SameInodes.dir (h : SameInodes s s') : dir s' = dir s :=
  dir_same (h.files _ (present_root s)) (h.alike _ (present_root s)).size

theorem Blocks.sameInodes (h : Blocks s) (hs : SameInodes s s') : Blocks s' :=
  h.change (.same h hs.freemap hs.nbits hs.nblocks hs.dBlocks hs.present fun i hi => ⟨hs.files i hi, (hs.alike i hi).size⟩)

/-- The names stay right if the link counts differ by what was owed. -/
theorem Names.sameInodes {a' b' : ℕ} (h : Names i a b s) (hs : SameInodes s s')
    (hother : ∀ j, Present s j → j ≠ i → (inodeOf s' j).linkcount = (inodeOf s j).linkcount)
    (hroot : (inodeOf s' SFS_ROOTDIR_INO).linkcount ≠ 0)
    (hown : i ≠ SFS_ROOTDIR_INO → Present s i → (inodeOf s i).linkcount + a = links (SfsVolume.dir s) i + b →
      (inodeOf s' i).linkcount + a' = links (SfsVolume.dir s) i + b') : Names i a' b' s' := by
  have hp : ∀ {j}, Present s' j → Present s j := fun hj => (hs.present _).mp hj
  refine ⟨?_, ?_, hroot, ?_, ?_, ?_, ?_⟩
  · exact Reads.listing (w := fileOf s SFS_ROOTDIR_INO) ⟨(hs.alike _ (present_root s)).size, (hs.files _ (present_root s)).bytes⟩
      h.listing
  · rw [(hs.alike _ (present_root s)).type]
    exact h.rootType
  · intro j hj hne
    rw [(hs.alike j (hp hj)).type]
    exact h.files j (hp hj) hne
  · intro j hj hne hji
    rw [hs.dir, hother j (hp hj) hji]
    exact h.counts j (hp hj) hne hji
  · intro hne hi
    rw [hs.dir]
    exact hown hne (hp hi) (h.owed hne (hp hi))
  · intro l nm j hl
    rw [hs.dir] at hl
    exact h.notRoot l nm j hl

/-- Every inode has the link count that it had. -/
theorem Sound.equal (h : Sound i a b s) (hs : SameInodes s s')
    (hcount : ∀ j, Present s j → (inodeOf s' j).linkcount = (inodeOf s j).linkcount) (hclean : Clean s') : Sound i a b s' := by
  refine ⟨h.blocks.sameInodes hs, ?_, hclean⟩
  refine h.names.sameInodes hs (fun j hj _ => hcount j hj) ?_ fun _ hi howed => ?_
  · rw [hcount _ (present_root s)]
    exact h.names.rootLinked
  · rwa [hcount i hi]

/-- The inodes and the disk are literally the same. -/
theorem Sound.congr (h : Sound i a b s) (hfreemap : s'.freemap = s.freemap) (hnbits : s'.nbits = s.nbits)
    (hnblocks : s'.nblocks = s.nblocks) (hdBlocks : s'.dBlocks = s.dBlocks) (hdisk : s'.disk = s.disk)
    (hinode : ∀ j, inodeOf s' j = inodeOf s j) (hpresent : ∀ j, dir s' = dir s → (Present s' j ↔ Present s j))
    (hclean : Clean s') : Sound i a b s' ∧ dir s' = dir s := by
  have hfile : ∀ j, fileOf s' j = fileOf s j := by
    intro j
    unfold fileOf Volume.file
    rw [hinode, hfreemap, hnbits, hnblocks, hdBlocks, hdisk]
  have hdir : dir s' = dir s := congrArg entries (hfile _)
  refine ⟨h.equal ⟨fun e _ => congrFun hfreemap e, hnbits, hnblocks, hdBlocks, fun j => hpresent j hdir, fun j _ => ?_, fun j _ => ?_⟩ ?_ hclean, hdir⟩
  · rw [hfile]
    exact sameFile_refl _
  · rw [hinode]
    exact .refl _
  · intro j _
    rw [hinode]

/-! References and the table. -/

theorem incref_ino (v u : ℕ) (s : Volume) : (vopIncref v s).ino u = s.ino u := by
  show (update s.vnode v { s.vnode v with refcount := (s.vnode v).refcount+1 } u).number = (s.vnode u).number
  by_cases hu : u = v
  · subst hu
    rw [update_self]
  · rw [update_of_ne hu]

theorem incref_inodeOf (v i : ℕ) (s : Volume) : inodeOf (vopIncref v s) i = inodeOf s i := by
  unfold inodeOf
  simp only [incref_ino]
  rfl

theorem Tabled.incref (h : Tabled s) (v : ℕ) : Tabled (vopIncref v s) := by
  refine ⟨?_, ?_, h.fresh, h.nodup⟩
  · intro u hu x hx
    rw [incref_ino, incref_ino]
    exact h.unique u hu x hx
  · intro u hu
    show (update s.vnode v { s.vnode v with refcount := (s.vnode v).refcount+1 } u).live = true
    by_cases huv : u = v
    · subst huv
      rw [update_self]
      exact h.live u hu
    · rw [update_of_ne huv]
      exact h.live u hu

theorem Sound.incref (h : Sound i a b s) (v : ℕ) : Sound i a b (vopIncref v s) ∧ dir (vopIncref v s) = dir s := by
  refine h.congr rfl rfl rfl rfl rfl (fun j => incref_inodeOf v j s) ?_ ?_
  · intro j hdir
    refine present_congr hdir (fun l => ?_) j
    unfold Loaded
    simp only [incref_ino]
    rfl
  · intro u hu hclean
    rw [incref_ino]
    exact h.clean u hu hclean

theorem add_ino (ht : Tabled s) {d : Dinode} {q : Bool} {u : ℕ} (hu : u ∈ s.vnodes) : (addVnode i d q s).ino u = s.ino u := by
  have hne : u ≠ s.nextVnode := Nat.ne_of_lt (ht.fresh u hu)
  show (update s.vnode s.nextVnode ⟨true, i, 1⟩ u).number = _
  rw [update_of_ne hne]
  rfl

theorem add_ino_new (i : ℕ) (d : Dinode) (q : Bool) (s : Volume) : (addVnode i d q s).ino s.nextVnode = i := by
  show (update s.vnode s.nextVnode ⟨true, i, 1⟩ s.nextVnode).number = i
  rw [update_self]

theorem add_mem {d : Dinode} {q : Bool} {u : ℕ} : u ∈ (addVnode i d q s).vnodes ↔ u ∈ s.vnodes ∨ u = s.nextVnode := by
  show u ∈ s.vnodes ++ [s.nextVnode] ↔ _
  simp

theorem add_loaded (ht : Tabled s) {d : Dinode} {q : Bool} : Loaded (addVnode i d q s) j ↔ Loaded s j ∨ j = i := by
  constructor
  · rintro ⟨u, hu, rfl⟩
    obtain hu | rfl := add_mem.mp hu
    · exact .inl ⟨u, hu, (add_ino ht hu).symm⟩
    · exact .inr (add_ino_new i d q s)
  · rintro (⟨u, hu, rfl⟩ | rfl)
    · exact ⟨u, add_mem.mpr (.inl hu), add_ino ht hu⟩
    · exact ⟨s.nextVnode, add_mem.mpr (.inr rfl), add_ino_new j d q s⟩

theorem Tabled.add (h : Tabled s) (hn : ¬Loaded s i) (d : Dinode) (q : Bool) : Tabled (addVnode i d q s) := by
  have hnew : ∀ u ∈ s.vnodes, u ≠ s.nextVnode := fun u hu => Nat.ne_of_lt (h.fresh u hu)
  refine ⟨?_, ?_, ?_, ?_⟩
  · intro u hu x hx heq
    obtain hu | rfl := add_mem.mp hu <;> obtain hx | rfl := add_mem.mp hx
    · rw [add_ino h hu, add_ino h hx] at heq
      exact h.unique u hu x hx heq
    · rw [add_ino h hu, add_ino_new] at heq
      exact absurd ⟨u, hu, heq⟩ hn
    · rw [add_ino h hx, add_ino_new] at heq
      exact absurd ⟨x, hx, heq.symm⟩ hn
    · rfl
  · intro u hu
    show (update s.vnode s.nextVnode ⟨true, i, 1⟩ u).live = true
    obtain hu | rfl := add_mem.mp hu
    · rw [update_of_ne (hnew u hu)]
      exact h.live u hu
    · rw [update_self]
  · intro u hu
    show u < s.nextVnode + 1
    obtain hu | rfl := add_mem.mp hu
    · exact Nat.lt_succ_of_lt (h.fresh u hu)
    · exact Nat.lt_succ_self _
  · refine h.nodup.append (List.nodup_singleton _) ?_
    simp only [List.disjoint_singleton]
    exact fun hm => hnew _ hm rfl

theorem add_inodeOf (ht : Tabled s) (hn : ¬Loaded s i) (d : Dinode) (q : Bool) (j : ℕ) :
    inodeOf (addVnode i d q s) j = if j = i then d else inodeOf s j := by
  have ht' := ht.add hn d q
  by_cases hj : j = i
  · rw [if_pos hj, hj]
    have hcore := inodeOf_loaded ht' (add_mem.mpr (.inr rfl))
    rw [add_ino_new] at hcore
    exact hcore.trans (update_self ..)
  · rw [if_neg hj]
    by_cases hl : Loaded s j
    · obtain ⟨u, hu, rfl⟩ := hl
      have hcore := inodeOf_loaded ht' (add_mem.mpr (.inl hu))
      rw [add_ino ht hu] at hcore
      rw [hcore, inodeOf_loaded ht hu]
      exact update_of_ne (Nat.ne_of_lt (ht.fresh u hu)) _ _
    · have hl' : ¬Loaded (addVnode i d q s) j := fun h => ((add_loaded ht).mp h).elim hl hj
      rw [inodeOf_unloaded hl, inodeOf_unloaded hl']
      rfl

/-- An inode is read from the disk. -/
theorem Sound.load (h : Sound i a b s) (ht : Tabled s) (hp : Present s j) (hn : ¬Loaded s j) :
    Sound i a b (addVnode j (.ofBlock (s.disk j)) false s) ∧ dir (addVnode j (.ofBlock (s.disk j)) false s) = dir s := by
  refine h.congr rfl rfl rfl rfl rfl ?_ ?_ ?_
  · intro l
    rw [add_inodeOf ht hn]
    split
    · next hl => rw [hl, inodeOf_unloaded hn]
    · rfl
  · intro l hdir
    unfold Present
    rw [hdir, add_loaded ht]
    constructor
    · rintro (hl | (hl | rfl) | hl)
      · exact .inl hl
      · exact .inr (.inl hl)
      · exact hp
      · exact .inr (.inr hl)
    · exact fun hl => hl.imp_right (Or.imp_left .inl)
  · intro u hu hclean
    obtain hu | rfl := add_mem.mp hu
    · have hne : u ≠ s.nextVnode := Nat.ne_of_lt (ht.fresh u hu)
      rw [add_ino ht hu]
      have hdirty : update s.dirty s.nextVnode false u = false := hclean
      rw [update_of_ne hne] at hdirty
      show Equal _ (update s.core s.nextVnode _ u)
      rw [update_of_ne hne]
      exact h.clean u hu hdirty
    · rw [add_ino_new]
      show Equal _ (update s.core s.nextVnode _ s.nextVnode)
      rw [update_self]
      exact .refl _

/-! Link counts. -/

theorem relink_inodeOf (ht : Tabled s) (hv : v ∈ s.vnodes) (n : ℕ) (q : Bool) (j : ℕ) :
    inodeOf { s with core := update s.core v (setLinkcount n (s.core v)), dirty := update s.dirty v q } j =
      if j = s.ino v then setLinkcount n (s.core v) else inodeOf s j := by
  generalize hs' : ({ s with core := update s.core v (setLinkcount n (s.core v)), dirty := update s.dirty v q } : Volume) = s'
  have ht' : Tabled s' := by
    subst hs'
    exact ⟨ht.unique, ht.live, ht.fresh, ht.nodup⟩
  have hino : s'.ino = s.ino := by subst hs'; rfl
  have hmem : s'.vnodes = s.vnodes := by subst hs'; rfl
  have hcore : s'.core = update s.core v (setLinkcount n (s.core v)) := by subst hs'; rfl
  by_cases hl : Loaded s j
  · obtain ⟨u, hu, rfl⟩ := hl
    have hloaded := inodeOf_loaded ht' (hmem ▸ hu)
    rw [hino, hcore] at hloaded
    rw [hloaded]
    by_cases huv : u = v
    · subst huv
      rw [update_self, if_pos rfl]
    · rw [update_of_ne huv, if_neg fun heq => huv (ht.unique u hu v hv heq), inodeOf_loaded ht hu]
  · have hl' : ¬Loaded s' j := by
      subst hs'
      exact hl
    have hne : j ≠ s.ino v := by
      rintro rfl
      exact hl ⟨v, hv, rfl⟩
    rw [if_neg hne, inodeOf_unloaded hl', inodeOf_unloaded hl]
    subst hs'
    rfl

/-- The link count of a file follows what has been done to its entries. -/
theorem Sound.relink {a' b' : ℕ} (h : Sound i a b s) (ht : Tabled s) (hv : v ∈ s.vnodes) (hi : s.ino v = i)
    (hroot : i ≠ SFS_ROOTDIR_INO) (hn : n < 2^16) (hcount : (s.core v).linkcount + a = links (dir s) i + b →
      n + a' = links (dir s) i + b') : Sound i a' b' (s.relink v n) ∧ dir (s.relink v n) = dir s := by
  have hinode : ∀ j, inodeOf (s.relink v n) j = if j = i then setLinkcount n (s.core v) else inodeOf s j := by
    intro j
    rw [← hi]
    exact relink_inodeOf ht hv n true j
  have hself : inodeOf s i = s.core v := hi ▸ inodeOf_loaded ht hv
  have hfile : ∀ j, fileOf (s.relink v n) j = fileOf s j := by
    intro j
    unfold fileOf
    rw [hinode]
    split
    · next hj =>
      rw [hj, hself]
      rfl
    · rfl
  have hdir : dir (s.relink v n) = dir s := congrArg entries (hfile _)
  have hsame : SameInodes s (s.relink v n) := by
    refine ⟨fun _ _ => rfl, rfl, rfl, rfl, fun j => present_congr hdir (fun _ => Iff.rfl) j, fun j _ => ?_, fun j _ => ?_⟩
    · rw [hfile]
      exact sameFile_refl _
    · rw [hinode]
      split
      · next hj =>
        rw [hj, hself]
        exact ⟨rfl, rfl, fun _ _ => rfl, rfl⟩
      · exact .refl _
  refine ⟨⟨h.blocks.sameInodes hsame, ?_, ?_⟩, hdir⟩
  · refine h.names.sameInodes hsame ?_ ?_ ?_
    · intro j _ hj
      rw [hinode, if_neg hj]
    · rw [hinode, if_neg hroot.symm]
      exact h.names.rootLinked
    · intro _ _ howed
      rw [hself] at howed
      rw [hinode, if_pos rfl]
      show n % 2^16 + a' = _
      rw [Nat.mod_eq_of_lt hn]
      exact hcount howed
  · intro u hu hclean
    have hdirty : update s.dirty v true u = false := hclean
    have huv : u ≠ v := by
      rintro rfl
      simp at hdirty
    rw [update_of_ne huv] at hdirty
    show Equal _ (update s.core v _ u)
    rw [update_of_ne huv]
    exact h.clean u hu hdirty

/-! Operations on the file of a vnode. -/

theorem keep_inodeOf (h : Blocks s) (ht : Tabled s) (hv : v ∈ s.vnodes) (hev : Evolves (s.view v) w) (hj : Present s j) :
    (inodeOf (s.keep v w) j).type = (inodeOf s j).type ∧ (inodeOf (s.keep v w) j).linkcount = (inodeOf s j).linkcount := by
  by_cases hne : j = s.ino v
  · rw [hne, keep_inodeOf_self ht hv, inodeOf_loaded ht hv]
    exact ⟨rfl, rfl⟩
  · rw [((h.kept ht hv hev).other j hj hne).2]
    exact ⟨rfl, rfl⟩

theorem not_differs (h : differs d w = false) : d.size = w.size ∧ d.indirect = w.indirect ∧ ∀ c < SFS_NDIRECT, d.direct c = w.direct c := by
  simp only [differs, Bool.or_eq_false_iff, bne_eq_false_iff_eq, List.any_eq_false, List.mem_range] at h
  exact ⟨h.1.1, h.1.2, fun c hc => by simpa using h.2 c hc⟩

theorem Clean.keep (h : Clean s) (hb : Blocks s) (ht : Tabled s) (hv : v ∈ s.vnodes) (hev : Evolves (s.view v) w) :
    Clean (s.keep v w) := by
  have hview := fileOf_loaded ht hv
  intro u hu hclean
  have hdisk : w.disk (s.ino u) = s.disk (s.ino u) :=
    (hev.outside _ (hview ▸ hb.outside_of_inode (present_loaded hv) (present_loaded hu))).2
  show Equal (.ofBlock (w.disk (s.ino u))) (update s.core v (ofFile w (s.core v)) u)
  have hdirty : update s.dirty v (s.dirty v || differs (s.core v) w) u = false := hclean
  rw [hdisk]
  by_cases huv : u = v
  · subst huv
    rw [update_self, Bool.or_eq_false_iff] at hdirty
    obtain ⟨hsize, hindirect, hdirect⟩ := not_differs hdirty.2
    obtain ⟨⟨hsize', htype, hdirect', hindirect'⟩, hcount⟩ := h u hu hdirty.1
    rw [update_self]
    refine ⟨⟨?_, htype, ?_, ?_⟩, hcount⟩
    · exact hsize'.trans (hsize ▸ (Nat.mod_eq_of_lt (s.core u).size_lt).symm)
    · intro c hc
      rw [hdirect' c hc]
      show (s.core u).direct c = w.direct c % 2^32
      rw [← hdirect c hc, Nat.mod_eq_of_lt ((s.core u).direct_lt c)]
    · exact hindirect'.trans (hindirect ▸ (Nat.mod_eq_of_lt (s.core u).indirect_lt).symm)
  · rw [update_of_ne huv] at hdirty ⊢
    exact h u hu hdirty

/-- The directory after an operation on a file of the volume. -/
theorem keep_dir (h : Blocks s) (ht : Tabled s) (hv : v ∈ s.vnodes) (hev : Evolves (s.view v) w) :
    dir (s.keep v w) = if s.ino v = SFS_ROOTDIR_INO then entries w else dir s := by
  have hk := h.kept ht hv hev
  split
  · next hroot => exact Reads.entries (w := w) ⟨hroot ▸ hk.size, hroot ▸ hk.self.bytes⟩
  · next hne =>
    obtain ⟨hsame, hinode⟩ := hk.other _ (present_root s) (Ne.symm hne)
    exact dir_same hsame (congrArg Dinode.size hinode)

theorem keep_listing (h : Sound i a b s) (ht : Tabled s) (hv : v ∈ s.vnodes) (hev : Evolves (s.view v) w)
    (hl : s.ino v = SFS_ROOTDIR_INO → Listing w) : Listing (fileOf (s.keep v w) SFS_ROOTDIR_INO) := by
  have hk := h.blocks.kept ht hv hev
  by_cases hroot : s.ino v = SFS_ROOTDIR_INO
  · exact Reads.listing (w := w) ⟨hroot ▸ hk.size, hroot ▸ hk.self.bytes⟩ (hl hroot)
  · obtain ⟨hsame, hinode⟩ := hk.other _ (present_root s) (Ne.symm hroot)
    exact Reads.listing (w := fileOf s SFS_ROOTDIR_INO) ⟨congrArg Dinode.size hinode, hsame.bytes⟩ h.names.listing

/-- An operation on a file, after which the directory lists `D`. -/
theorem Sound.keep {a' b' : ℕ} (h : Sound i a b s) (ht : Tabled s) (hv : v ∈ s.vnodes) (hev : Evolves (s.view v) w)
    (hl : s.ino v = SFS_ROOTDIR_INO → Listing w) (hD : (if s.ino v = SFS_ROOTDIR_INO then entries w else dir s) = D)
    (hnew : ∀ k n j, D k = some (n, j) → Present s j ∧ j ≠ SFS_ROOTDIR_INO)
    (hold : ∀ k n j, dir s k = some (n, j) → Loaded s j ∨ ∃ k n, D k = some (n, j))
    (hcounts : ∀ j, j ≠ i → links D j = links (dir s) j)
    (howed : ∀ c, c + a = links (dir s) i + b → c + a' = links D i + b') :
    Sound i a' b' (s.keep v w) ∧ dir (s.keep v w) = D := by
  have hdir : dir (s.keep v w) = D := (keep_dir h.blocks ht hv hev).trans hD
  have hpresent : ∀ j, Present (s.keep v w) j → Present s j := by
    rintro j (hj | hj | ⟨k, n, hk⟩)
    · exact .inl hj
    · exact .inr (.inl hj)
    · rw [hdir] at hk
      exact (hnew k n j hk).1
  have hstay : ∀ j, Present s j → Present (s.keep v w) j := by
    rintro j (hj | hj | ⟨k, n, hk⟩)
    · exact .inl hj
    · exact .inr (.inl hj)
    · obtain hj | hj := hold k n j hk
      · exact .inr (.inl hj)
      · refine .inr (.inr ?_)
        rwa [hdir]
  have hinode := fun j hj => keep_inodeOf (j := j) h.blocks ht hv hev hj
  refine ⟨⟨h.blocks.keep ht hv hev hpresent hstay, ⟨keep_listing h ht hv hev hl, ?_, ?_, ?_, ?_, ?_, ?_⟩,
    h.clean.keep h.blocks ht hv hev⟩, hdir⟩
  · rw [(hinode _ (present_root s)).1]
    exact h.names.rootType
  · rw [(hinode _ (present_root s)).2]
    exact h.names.rootLinked
  · intro j hj hne
    rw [(hinode j (hpresent j hj)).1]
    exact h.names.files j (hpresent j hj) hne
  · intro j hj hne hji
    rw [(hinode j (hpresent j hj)).2, hdir, hcounts j hji]
    exact h.names.counts j (hpresent j hj) hne hji
  · intro hne hi
    rw [(hinode i (hpresent i hi)).2, hdir]
    exact howed _ (h.names.owed hne (hpresent i hi))
  · intro k n j hk
    rw [hdir] at hk
    exact (hnew k n j hk).2

/-- The directory is as before. -/
theorem Sound.keepFile (h : Sound i a b s) (ht : Tabled s) (hv : v ∈ s.vnodes) (hev : Evolves (s.view v) w)
    (hroot : s.ino v = SFS_ROOTDIR_INO → Listing w ∧ entries w = dir s) :
    Sound i a b (s.keep v w) ∧ dir (s.keep v w) = dir s := by
  refine h.keep ht hv hev (fun hr => (hroot hr).1) ?_ ?_ (fun k n j hk => .inr ⟨k, n, hk⟩) (fun _ _ => rfl) (fun _ hc => hc)
  · split
    · next hr => exact (hroot hr).2
    · rfl
  · exact fun k n j hk => ⟨.inr (.inr ⟨k, n, hk⟩), h.names.notRoot k n j hk⟩

/-- A name for inode `i`, whose count is still to follow. -/
theorem Sound.enter (h : Sound i 0 0 s) (ht : Tabled s) (hv : v ∈ s.vnodes) (hroot : s.ino v = SFS_ROOTDIR_INO)
    (hev : Evolves (s.view v) w) (hl : Listing w) (hi : Present s i) (hne : i ≠ SFS_ROOTDIR_INO)
    (hfree : dir s k = none) (hset : entries w = update (dir s) k (some (name, i))) :
    Sound i 1 0 (s.keep v w) ∧ dir (s.keep v w) = update (dir s) k (some (name, i)) := by
  have hk : k < 8 * maxBlocks := by
    refine Nat.lt_of_lt_of_le (entries_lt (w := w) ?_) hl.slots_le
    simp [hset]
  have hlinks : ∀ j, links (update (dir s) k (some (name, i))) j = _ := links_enter hk hfree
  refine h.keep ht hv hev (fun _ => hl) (by rw [if_pos hroot, hset]) ?_ ?_ ?_ ?_
  · intro l n j hj
    by_cases hlk : l = k
    · subst hlk
      rw [update_self] at hj
      cases hj
      exact ⟨hi, hne⟩
    · rw [update_of_ne hlk] at hj
      exact ⟨.inr (.inr ⟨l, n, hj⟩), h.names.notRoot l n j hj⟩
  · intro l n j hj
    have hlk : l ≠ k := by
      rintro rfl
      simp [hfree] at hj
    exact .inr ⟨l, n, by rwa [update_of_ne hlk]⟩
  · intro j hji
    rw [hlinks, if_neg hji, Nat.add_zero]
  · intro c hc
    rw [hlinks, if_pos rfl]
    omega

/-- A name of inode `i` is cleared, whose count is still to follow. -/
theorem Sound.clear (h : Sound i 0 0 s) (ht : Tabled s) (hv : v ∈ s.vnodes) (hroot : s.ino v = SFS_ROOTDIR_INO)
    (hev : Evolves (s.view v) w) (hl : Listing w) (hi : Loaded s i) (hk : dir s k = some (name, i))
    (hset : entries w = update (dir s) k none) :
    Sound i 0 1 (s.keep v w) ∧ dir (s.keep v w) = update (dir s) k none := by
  have hlt := dir_lt h.names.listing (show dir s k ≠ none by simp [hk])
  have hlinks := links_clear hlt hk
  refine h.keep ht hv hev (fun _ => hl) (by rw [if_pos hroot, hset]) ?_ ?_ ?_ ?_
  · intro l n j hj
    have hlk : l ≠ k := by
      rintro rfl
      simp at hj
    rw [update_of_ne hlk] at hj
    exact ⟨.inr (.inr ⟨l, n, hj⟩), h.names.notRoot l n j hj⟩
  · intro l n j hj
    by_cases hlk : l = k
    · subst hlk
      rw [hk] at hj
      cases hj
      exact .inl hi
    · exact .inr ⟨l, n, by rwa [update_of_ne hlk]⟩
  · intro j hji
    have := hlinks j
    rw [if_neg hji, Nat.add_zero] at this
    exact this
  · intro c hc
    have := hlinks i
    rw [if_pos rfl] at this
    omega

end OS161.SfsVolume
