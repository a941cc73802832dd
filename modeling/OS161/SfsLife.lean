import OS161.SfsHistory

/-!
# The life of a volume

What holds in every state that threads can bring a mounted volume to, and what is
left of it when it is written back, unmounted and mounted again.
-/

set_option autoImplicit false

namespace OS161.SfsThreads

open Function OS161.Vfs OS161.CopyInOut OS161.Sfs OS161.SfsTruncate OS161.SfsOwnership OS161.SfsDir OS161.SfsVolume
open OS161.References OS161.Runs
open OS161.Sfsck (SFS_ROOTDIR_INO SFS_FREEMAP_START SFS_TYPE_FILE Dinode)
open OS161.SfsckFreemap (sbFreemapblocks)

/-- Every block is free or has one use: for the volume itself, as an inode, or for one file in one place. -/
structure Exact (s : Volume) : Prop where
  used : ∀ e < s.nblocks, s.freemap e = true ↔ Reserved s.nblocks e ∨ Present s e ∨ ∃ i, Present s i ∧ Owns (fileOf s i) e
  inodes : ∀ i, Present s i → i < s.nblocks ∧ ¬Reserved s.nblocks i
  owned : ∀ i e, Present s i → Owns (fileOf s i) e → e < s.nblocks ∧ ¬Reserved s.nblocks e ∧ ¬Present s e
  apart : ∀ i j e, Present s i → Present s j → Owns (fileOf s i) e → Owns (fileOf s j) e → i = j
  once : ∀ i, Present s i → ∀ c c', mapped (fileOf s i) c = mapped (fileOf s i) c' → mapped (fileOf s i) c ≠ 0 → c = c'
  indirect : ∀ i, Present s i → ∀ c, mapped (fileOf s i) c ≠ 0 → mapped (fileOf s i) c ≠ (fileOf s i).indirect

/-- Names are different, they are those of files, and each file that is listed or in use has as many of them
as its link count says. -/
structure Tallied (s : Volume) : Prop where
  distinct : ∀ k l n i j, dir s k = some (n, i) → dir s l = some (n, j) → k = l
  named : ∀ k n i, dir s k = some (n, i) → (inodeOf s i).type = SFS_TYPE_FILE ∧ (inodeOf s i).linkcount ≠ 0
  counted : ∀ i, Present s i → i ≠ SFS_ROOTDIR_INO → (inodeOf s i).linkcount = links (dir s) i

/-- The table has the live vnodes, all that somebody has is in it, and each vnode counts its references. -/
structure Referenced {T : Type} (s : State T) : Prop where
  live : ∀ v, (s.vol.vnode v).live = true ↔ v ∈ s.vol.vnodes
  held : ∀ v, 0 < s.held v → v ∈ s.vol.vnodes
  hand : ∀ x v, s.hand x = some v → v ∈ s.vol.vnodes
  counted : ∀ v ∈ s.vol.vnodes, ∃ S : Finset (T × Bool), (∀ x, x ∈ S ↔ s.hand x = some v) ∧
    (s.vol.vnode v).refcount = s.held v + S.card ∧ 0 < (s.vol.vnode v).refcount

variable {T : Type} [DecidableEq T] {s s' : State T} {as : List (T × Action)} {a : T × Action} {vol : Volume} {j : ℕ} {c : Call}

theorem starts_inv (h : Starts vol) : Inv (mounted (T := T) vol) := mounted_inv h.ready h.laid h.empty h.dead

theorem run_inv (h : Starts vol) (hrun : runs as (mounted vol) = .ok s) : Inv s :=
  run_invariant (fun _ _ _ hi hs => hi.steps hs) (starts_inv h) hrun

theorem exact_of_blocks {s : Volume} (h : Blocks s) : Exact s := by
  refine ⟨fun e he => ⟨h.exact e he, ?_⟩, fun i hi => ⟨(h.inodes i hi).1, (h.inodes i hi).2.2⟩, ?_, h.apart,
    fun i hi => (h.files i hi).once, fun i hi => (h.files i hi).apart⟩
  · rintro (hr | hp | ⟨i, hi, ho⟩)
    · exact (h.reserved e hr).1 he
    · exact (h.inodes e hp).2.1
    · exact (owns_held (h.files i hi) ho).2
  · intro i e hi ho
    exact ⟨(owns_held (h.files i hi) ho).1, fun hr => (h.reserved e hr).2 i hi ho, fun hp => h.outside i e hi hp ho⟩

/-- In every state that a run reaches each block has exactly one use or none. -/
theorem run_exact (h : Starts vol) (hrun : runs as (mounted vol) = .ok s) : Exact s.vol :=
  exact_of_blocks (run_inv h hrun).ready.sound.blocks

theorem making_exact : ∃ vol s, Starts vol ∧ runs making (mounted vol) = .ok s ∧ Exact s.vol := by
  obtain ⟨-, vol, s, -, -, -, -, hstarts, -, hrun, -⟩ := making_runs
  exact ⟨vol, s, hstarts, hrun, run_exact hstarts hrun⟩

/-- In every state that a run reaches the names are right, and the link counts. -/
theorem run_tallies (h : Starts vol) (hrun : runs as (mounted vol) = .ok s) : Tallied s.vol := by
  have hready := (run_inv h hrun).ready
  have hnames := hready.sound.names
  refine ⟨fun k l n i j hk hl => hnames.listing.distinct k l n i j hk hl, fun k n i hk => ?_, fun i hi hne => hnames.exact hi hne⟩
  have hp : Present s.vol i := .inr (.inr ⟨k, n, hk⟩)
  have hne := hnames.notRoot k n i hk
  refine ⟨hnames.files i hp hne, ?_⟩
  rw [hnames.exact hp hne]
  exact Nat.ne_of_gt (links_pos (dir_lt hnames.listing (by simp [hk])) hk)

theorem making_tallies : ∃ vol s, Starts vol ∧ runs making (mounted vol) = .ok s ∧ Tallied s.vol := by
  obtain ⟨-, vol, s, -, -, -, -, hstarts, -, hrun, -⟩ := making_runs
  exact ⟨vol, s, hstarts, hrun, run_tallies hstarts hrun⟩

/-- No run stops the kernel, and each vnode counts the references that there are to it. -/
theorem run_safe (h : Starts vol) (as : List (T × Action)) : Ensures (· = .blocked) Referenced (runs as (mounted vol)) := by
  have hrun : Ensures (· = .blocked) Inv (runs as (mounted (T := T) vol)) := run_ensures (fun a s hi => step_steps a s hi) (starts_inv h)
  cases hx : runs as (mounted (T := T) vol) with
  | error e =>
    rw [hx] at hrun
    exact hrun
  | ok s =>
    rw [hx] at hrun
    have hi : Inv s := hrun
    exact ⟨fun v => ⟨hi.listed v, hi.listed_live⟩, hi.refs.outside, fun x v hv => hi.inTable hv,
      fun v hv => hi.refs.count v (hi.listed_live hv)⟩

theorem making_safe : ∃ vol, Starts vol ∧ Ensures (· = .blocked) Referenced (runs making (mounted vol)) := by
  obtain ⟨-, vol, -, -, -, -, -, hstarts, -⟩ := making_runs
  exact ⟨vol, hstarts, run_safe hstarts making⟩

/-! One file. -/

/-- The file is there, and the step does not write it. -/
def Spares (j : ℕ) (a : T × Action) (s : State T) : Prop := Present s.vol j ∧ ∀ c, s.place a.1 = .working c → ¬c.writes s.vol j

/-- The same file with the same bytes. -/
def Unchanged (j : ℕ) (vol vol' : Volume) : Prop :=
  (∀ x, byteAt (fileOf vol' j) x = byteAt (fileOf vol j) x) ∧ (inodeOf vol' j).size = (inodeOf vol j).size

theorem step_spares (h : Inv s) (hs : step a s = .ok s') (hspares : Spares j a s) (hj : Present s'.vol j) :
    Unchanged j s.vol s'.vol := by
  cases (step_went h hs).moved with
  | recounted _ h =>
    exact ⟨fun x => by rw [h.file], by rw [h.inode]⟩
  | worked c o hplace _ h =>
    have hwrites := hspares.2 c hplace
    exact ⟨h.under.spares.bytes j hspares.1 hwrites, h.under.spares.size j hspares.1 hwrites⟩
  | erased d _ _ h => exact ⟨h.bytes j hj, h.size j hj⟩

/-- A file that nobody writes keeps its bytes, whatever else happens. -/
theorem run_unwritten {as' : List (T × Action)} (h : Starts vol) (hrun : runs as (mounted vol) = .ok s)
    (hspares : Guarded step (Spares j) as' s) (hrun' : runs as' s = .ok s') (hj : Present s'.vol j) :
    Unchanged j s.vol s'.vol := by
  have hinv := run_inv h hrun
  clear hrun h
  induction as' generalizing s with
  | nil =>
    cases hrun'
    exact ⟨fun _ => rfl, rfl⟩
  | cons a as' ih =>
    obtain ⟨s₁, hs, hrest⟩ := run_cons_ok.mp hrun'
    have hguard := hspares.2 s₁ hs
    have hj₁ : Present s₁.vol j := by
      cases as' with
      | nil =>
        cases hrest
        exact hj
      | cons b bs => exact hguard.1.1
    obtain ⟨hbytes, hsize⟩ := ih hguard hrest (hinv.steps hs)
    obtain ⟨hbytes₁, hsize₁⟩ := step_spares hinv hs hspares.1 hj₁
    exact ⟨fun x => (hbytes x).trans (hbytes₁ x), hsize.trans hsize₁⟩

theorem making_unwritten : ∃ (vol : Volume) (s : State Bool), Starts vol ∧
    Guarded step (Spares SFS_ROOTDIR_INO) [(true, .call .getroot), (true, goOn)] (mounted vol) ∧
    runs [(true, .call .getroot), (true, goOn)] (mounted vol) = .ok s ∧ Unchanged SFS_ROOTDIR_INO vol s.vol := by
  obtain ⟨-, vol, -, -, -, -, -, hstarts, -⟩ := making_runs
  have hguard : Guarded step (Spares SFS_ROOTDIR_INO) [((true : Bool), Action.call .getroot), (true, goOn)] (mounted vol) := by
    refine ⟨⟨present_root _, fun c hc => by simp [mounted] at hc⟩, fun s₁ hs => ?_⟩
    cases hs
    exact ⟨⟨present_root _, fun c hc => by simp [State.goto] at hc⟩, fun _ _ => trivial⟩
  have hnothing : runs [] (mounted (T := Bool) vol) = .ok (mounted vol) := rfl
  exact ⟨vol, _, hstarts, hguard, rfl, run_unwritten hstarts hnothing hguard rfl (present_root _)⟩

/-! The volume on its device. -/

theorem step_fixed (h : Inv s) (hs : step a s = .ok s') : Fixed s.vol s'.vol := by
  cases (step_went h hs).moved with
  | recounted _ h => exact h.fixed
  | worked c o _ _ h => exact h.under.spares.fixed
  | erased d _ _ h => exact h.fixed

theorem run_fixed (h : Starts vol) (hrun : runs as (mounted vol) = .ok s) : Fixed vol s.vol := by
  have hstep : ∀ (a : T × Action) s s', Inv s ∧ Fixed vol s.vol → step a s = .ok s' → Inv s' ∧ Fixed vol s'.vol :=
    fun a s s' hi hs => ⟨hi.1.steps hs, hi.2.trans (step_fixed hi.1 hs)⟩
  exact (run_invariant hstep ⟨starts_inv h, .refl vol⟩ hrun).2

theorem labelled_pos {s : Volume} (h : Laid s) : 0 < s.nblocks := by
  have hroom := h.room
  unfold SFS_FREEMAP_START at hroom
  omega

/-- What a run leaves once it has been written back. -/
structure Synced (s s₁ : Volume) : Prop where
  ready : Ready s₁
  laid : Laid s₁
  map : MapKept s₁
  label : Labelled s₁
  clean : ∀ v ∈ s₁.vnodes, s₁.dirty v = false
  mapClean : s₁.freemapdirty = false
  vnodes : s₁.vnodes = s.vnodes
  present : ∀ i, Present s i → Present s₁ i
  shows : Shows s s₁

theorem run_syncs (h : Starts vol) (hlabel : Labelled vol) (hrun : runs as (mounted vol) = .ok s) :
    ∃ s₁, sfsSync s.vol = .ok s₁ ∧ Synced s.vol s₁ := by
  have hinv := run_inv h hrun
  have hfixed := run_fixed h hrun
  obtain ⟨s₁, hsync, hw, hflag⟩ := sfsSync_writes hinv.ready hinv.laid
  have hfixed₁ := hw.under.spares.fixed
  have hvnodes : s₁.vnodes = s.vol.vnodes := by
    cases hw.under.takes with
    | nothing hvnodes _ _ => exact hvnodes
  refine ⟨s₁, hsync, hw.under.ready, hinv.laid.congr hfixed₁.nbits hfixed₁.nblocks, hfixed₁.map hinv.laid (hfixed.map h.laid h.map),
    hfixed₁.labelled (labelled_pos hinv.laid) (hfixed.labelled (labelled_pos h.laid) hlabel), ?_, hflag, hvnodes, hw.under.spares.present, hw.dir,
    files_dir hw.dir, fun i hi => hw.under.spares.bytes i hi not_false, fun i hi => hw.under.spares.size i hi not_false⟩
  rw [hvnodes]
  exact hw.clean

/-- Once it has been written back, the disk alone has what the threads have made of the volume. -/
theorem run_survives (h : Starts vol) (hlabel : Labelled vol) (hrun : runs as (mounted vol) = .ok s) :
    ∃ s₁ vol', sfsSync s.vol = .ok s₁ ∧ sfsDomount ⟨SFS_BLOCKSIZE, s₁.dBlocks, s₁.disk⟩ ⟨true, true⟩ = .ok (.ok vol') ∧
      Shows s.vol vol' := by
  obtain ⟨s₁, hsync, hw⟩ := run_syncs h hlabel hrun
  obtain ⟨freemap, hmount, -, hshows⟩ := disk_mounts hw.ready hw.laid hw.label hw.clean
  exact ⟨s₁, _, hsync, hmount, hw.shows.trans hshows hw.present⟩

theorem making_survives : ∃ vol s, Starts vol ∧ runs making (mounted vol) = .ok s ∧ ∃ s₁ vol', sfsSync s.vol = .ok s₁ ∧
    sfsDomount ⟨SFS_BLOCKSIZE, s₁.dBlocks, s₁.disk⟩ ⟨true, true⟩ = .ok (.ok vol') ∧ Shows s.vol vol' := by
  obtain ⟨-, vol, s, -, -, -, -, hstarts, hlabel, hrun, -⟩ := making_runs
  exact ⟨vol, s, hstarts, hrun, run_survives hstarts hlabel hrun⟩

/-- What has happened to a device of `n` blocks since mksfs has made a volume on it: mounted again and again, used
by threads until nothing is in use, written back and unmounted. -/
inductive Lives (T : Type) [DecidableEq T] (n : ℕ) : Device → List (Request × Reply) → Prop where
  | made {arg disk v} (hmade : Mksfs.main arg (Mksfs.started n disk) = .ok ((), v)) : Lives T n ⟨SFS_BLOCKSIZE, n, v.disk⟩ []
  | session {dev dev' : Device} {l : List (Request × Reply)} {vol s₁ : Volume} {as : List (T × Action)} {s : State T}
      (h : Lives T n dev l) (hmount : sfsDomount dev ⟨true, true⟩ = .ok (.ok vol)) (hrun : runs as (mounted vol) = .ok s)
      (hsync : sfsSync s.vol = .ok s₁) (hunmount : sfsUnmount s₁ = .ok (.ok dev')) :
      Lives T n dev' (l ++ answers (history as (mounted vol)))

theorem Legal.append {l l' : List (Request × Reply)} {m m' m'' : Name → Option ℕ} (h : Legal l m m') (h' : Legal l' m' m'') :
    Legal (l ++ l') m m'' := by
  induction h' with
  | start => rwa [List.append_nil]
  | next _ hnext ih =>
    rw [← List.append_assoc]
    exact (ih h).next hnext

theorem unmount_ok {s : Volume} {dev : Device} (h : sfsUnmount s = .ok (.ok dev)) :
    s.vnodes = [] ∧ dev = ⟨SFS_BLOCKSIZE, s.dBlocks, s.disk⟩ := by
  unfold sfsUnmount at h
  split at h
  · cases h
  · next hvnodes =>
    split at h
    · cases h
    · cases h
      exact ⟨not_not.mp hvnodes, rfl⟩

/-- Whatever happens to a volume in its life it can be mounted again, and all the answers that it has ever given are,
in their order, those of one map from names to files, which was empty at first and is what is then found on the volume. -/
theorem life_answers {n : ℕ} {dev : Device} {l : List (Request × Reply)} (hn : n < 2^32) (hpos : 0 < sbFreemapblocks n)
    (h : Lives T n dev l) : ∃ vol, sfsDomount dev ⟨true, true⟩ = .ok (.ok vol) ∧ Starts vol ∧ Labelled vol ∧
      Legal l (fun _ => none) (files vol) := by
  induction h with
  | made hmade =>
    obtain ⟨vol, hmount, hstarts, hlabel, hfiles, -⟩ := fresh_mounts ((Mksfs.main_makes _ _ hn).ok hmade) hpos (Nat.le_refl n) hn
    refine ⟨vol, hmount, hstarts, hlabel, ?_⟩
    rw [hfiles]
    exact .start
  | session _ hmount hrun hsync hunmount ih =>
    obtain ⟨vol, hmount', hstarts, hlabel, hlegal⟩ := ih
    rw [hmount] at hmount'
    cases hmount'
    obtain ⟨s₁, hsync', hw⟩ := run_syncs hstarts hlabel hrun
    rw [hsync] at hsync'
    cases hsync'
    have hempty := (unmount_ok hunmount).1
    obtain ⟨dev', vol', hunmount', hmount', hstarts', hlabel', hshows⟩ :=
      unmount_remounts hw.ready hw.laid hw.map hw.label hempty hw.mapClean
    rw [hunmount] at hunmount'
    cases hunmount'
    refine ⟨vol', hmount', hstarts', hlabel', hlegal.append ?_⟩
    rw [hshows.files, hw.shows.files]
    exact (run_answers hstarts hrun).1

theorem making_life : ∃ dev vol l, Lives Bool 4096 dev l ∧ sfsDomount dev ⟨true, true⟩ = .ok (.ok vol) ∧
    Starts vol ∧ Labelled vol ∧ Legal l (fun _ => none) (files vol) := by
  obtain ⟨v, vol, s, s₁, dev, hmade, hmount, -, -, hrun, hsync, hunmount⟩ := making_runs
  have hlives : Lives Bool 4096 dev _ := .session (.made hmade) hmount hrun hsync hunmount
  obtain ⟨vol', hlife⟩ := life_answers (by decide) (by decide) hlives
  exact ⟨dev, vol', _, hlives, hlife⟩

end OS161.SfsThreads
