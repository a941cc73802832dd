import OS161.SfsThreads

/-!
# What a call is for

To its users a volume is a finite map from names to files. Each call is one
operation on that map: it answers as the map says, or it fails for want of memory,
of space or of a shorter name and changes nothing.
-/

set_option autoImplicit false

namespace OS161.SfsThreads

open Function OS161.Vfs OS161.CopyInOut OS161.Sfs OS161.SfsIo OS161.SfsDir OS161.SfsVolume OS161.References OS161.Runs
open OS161.SharedDescriptor (Rw)
open OS161.Sfsck (SFS_ROOTDIR_INO SFS_TYPE_FILE SFS_TYPE_DIR Dinode)

/-- What is asked of the map. Calls that only use a file, or the directory as such, ask nothing. -/
inductive Request where
  | creat (name : Name) (excl : Bool)
  | link (name : Name) (i : ℕ)
  | remove (name : Name)
  | rename (n₁ n₂ : Name)
  | lookup (name : Name)
  | other

abbrev Reply := Except Errno (Option ℕ)

/-- The map before and after a request. A new file is one that no name stood for. -/
inductive Answers : Request → (Name → Option ℕ) → Reply → (Name → Option ℕ) → Prop where
  | created {m name excl i} (hnew : m name = none) (hfresh : ∀ n, m n ≠ some i) :
      Answers (.creat name excl) m (.ok (some i)) (update m name (some i))
  | opened {m name i} (hi : m name = some i) : Answers (.creat name false) m (.ok (some i)) m
  | exclusive {m name i} (hi : m name = some i) : Answers (.creat name true) m (.error .eexist) m
  | linked {m name i} (hnew : m name = none) : Answers (.link name i) m (.ok none) (update m name (some i))
  | taken {m name i} (hold : m name ≠ none) : Answers (.link name i) m (.error .eexist) m
  | removed {m name} (hold : m name ≠ none) : Answers (.remove name) m (.ok none) (update m name none)
  | unknown {m name} (hno : m name = none) : Answers (.remove name) m (.error .enoent) m
  | renamed {m n₁ n₂ i} (hi : m n₁ = some i) (hnew : m n₂ = none) :
      Answers (.rename n₁ n₂) m (.ok none) (update (update m n₂ (some i)) n₁ none)
  | unnamed {m n₁ n₂} (hno : m n₁ = none) : Answers (.rename n₁ n₂) m (.error .enoent) m
  | occupied {m n₁ n₂} (hold : m n₁ ≠ none) (hother : m n₂ ≠ none) : Answers (.rename n₁ n₂) m (.error .eexist) m
  | found {m name i} (hi : m name = some i) : Answers (.lookup name) m (.ok (some i)) m
  | missing {m name} (hno : m name = none) : Answers (.lookup name) m (.error .enoent) m
  | other {m reply} : Answers .other m reply m
  | failed {req m e} (hcause : e ≠ .eexist ∧ e ≠ .enoent) : Answers req m (.error e) m

def Call.request (s : Volume) : Call → Request
  | .creat _ name excl => .creat name excl
  | .link _ name f => .link name (s.ino f)
  | .remove _ name => .remove name
  | .rename _ n₁ n₂ => .rename n₁ n₂
  | .lookup _ path => .lookup path
  | .getroot | .lookparent .. | .transfer .. | .truncate .. | .fsync _ | .sync => .other

/-- The result with the vnode's number. -/
def reply (o : Outcome) (s : Volume) : Reply :=
  match o.result with
  | .error e => .error e
  | .ok r => .ok (r.map s.ino)

/-- The files whose bytes a call may change. -/
def Call.writes (s : Volume) (j : ℕ) : Call → Prop
  | .creat .. | .link .. | .remove .. | .rename .. => j = SFS_ROOTDIR_INO
  | .transfer v u _ => u.rw = .write ∧ j = s.ino v
  | .truncate v _ => j = s.ino v
  | .getroot | .lookup .. | .lookparent .. | .fsync _ | .sync => False

/-- The vnodes for which a call is not refused. -/
def Call.Fits (i : ℕ) : Call → Prop
  | .creat .. | .link .. | .remove .. | .rename .. | .lookup .. | .lookparent .. => i = SFS_ROOTDIR_INO
  | .transfer .. | .truncate .. => i ≠ SFS_ROOTDIR_INO
  | .getroot | .fsync _ | .sync => True

/-- The call's vnodes are in the table, and of the right kind. -/
structure Valid (c : Call) (s : Volume) : Prop where
  target : ∀ v, c.target = some v → v ∈ s.vnodes ∧ c.Fits (s.ino v)
  second : ∀ f, c.second = some f → f ∈ s.vnodes

structure Does (c : Call) (s : Volume) (o : Outcome) (s' : Volume) : Prop where
  under : Under (c.writes s) s o.vnode s'
  second : c.second ≠ none → o.vnode = none
  answers : Answers (c.request s) (files s) (reply o s') (files s')

variable {c : Call} {s s' : Volume} {o : Outcome} {mem : Memory} {g v : ℕ} {name n₁ n₂ : Name} {excl : Bool}

theorem creates_answers (h : Ready s) (hc : Creates name excl s o s') : Answers (.creat name excl) (files s) (reply o s') (files s') := by
  cases hc with
  | refused i hi hexcl =>
    subst hexcl
    exact .exclusive hi
  | found g _ hmem hexcl hnamed hsame =>
    subst hexcl
    rw [hsame]
    exact .opened hnamed
  | made g _ hmem hnew hfresh hset =>
    rw [hset]
    refine .created hnew fun n hn => hfresh ?_
    obtain ⟨k, hk⟩ := (files_some h).mp hn
    exact (h.named hk).1
  | failed d e _ hcause hsame =>
    rw [hsame]
    exact .failed hcause

theorem enters_answers {i : ℕ} (hc : Enters name i s o s') :
    o.vnode = none ∧ Answers (.link name i) (files s) (reply o s') (files s') := by
  cases hc with
  | entered _ hnew hset =>
    rw [hset]
    exact ⟨rfl, .linked hnew⟩
  | directory hroot => exact ⟨rfl, .failed (by decide)⟩
  | failed e _ hcause hfound hsame =>
    rw [hsame]
    refine ⟨rfl, ?_⟩
    by_cases he : e = .eexist
    · subst he
      exact .taken (hcause.mp rfl)
    · exact .failed ⟨he, hfound⟩

theorem removes_answers (hc : Removes name s o s') : Answers (.remove name) (files s) (reply o s') (files s') := by
  cases hc with
  | removed g _ hnamed hset =>
    rw [hset]
    exact .removed (by simp [hnamed])
  | missing hno => exact .unknown hno
  | failed i hi => exact .failed (by decide)

theorem renames_answers (hc : Renames n₁ n₂ s o s') : Answers (.rename n₁ n₂) (files s) (reply o s') (files s') := by
  cases hc with
  | moved g _ hnamed hnew hset =>
    rw [hset]
    exact .renamed hnamed hnew
  | missing hno => exact .unnamed hno
  | failed i hi => exact .failed (by decide)
  | refused g e _ hnamed hcause hfound hsame =>
    rw [hsame]
    by_cases he : e = .eexist
    · subst he
      exact .occupied (by simp [hnamed]) (hcause.mp rfl)
    · exact .failed ⟨he, hfound⟩

theorem lookups_answers (hc : Lookups name s o s') : Answers (.lookup name) (files s) (reply o s') (files s') := by
  cases hc with
  | found g _ hmem hnamed hsame =>
    rw [hsame]
    exact .found hnamed
  | missing hno => exact .missing hno
  | failed i hi => exact .failed (by decide)

/-- A call that asks nothing of the map leaves it as it is. -/
theorem other_answers {r : Reply} (hsame : files s' = files s) : Answers .other (files s) r (files s') := by
  rw [hsame]
  exact .other

theorem Valid.root (h : Valid c s) (hv : c.target = some v) (hroot : c.Fits (s.ino v) → s.ino v = SFS_ROOTDIR_INO) : Root v s :=
  ⟨(h.target v hv).1, hroot (h.target v hv).2⟩

/-- On a sound volume every call comes to its end, and does what it is for. -/
theorem body_does (h : Ready s) (hl : Laid s) (hc : Valid c s) (mem : Memory) : ∃ o s', c.body mem s = .ok (o, s') ∧ Does c s o s' := by
  cases c with
  | getroot =>
    obtain ⟨o, s', hrun, hunder, hgets⟩ := sfsGetroot_works h mem
    exact ⟨o, s', hrun, hunder, fun hno => absurd rfl hno, other_answers hgets⟩
  | creat v name excl =>
    obtain ⟨o, s', hrun, hunder, hcreates⟩ := sfsCreat_creates h (hc.root rfl id) name excl mem
    exact ⟨o, s', hrun, hunder, fun hno => absurd rfl hno, creates_answers h hcreates⟩
  | link v name f =>
    obtain ⟨o, s', hrun, hunder, henters⟩ := sfsLink_enters h (hc.root rfl id) (hc.second f rfl) name
    exact ⟨o, s', hrun, hunder, fun _ => (enters_answers henters).1, (enters_answers henters).2⟩
  | remove v name =>
    obtain ⟨o, s', hrun, hunder, hremoves⟩ := sfsRemove_removes h (hc.root rfl id) name mem
    exact ⟨o, s', hrun, hunder, fun hno => absurd rfl hno, removes_answers hremoves⟩
  | rename v n₁ n₂ =>
    obtain ⟨o, s', hrun, hunder, hrenames⟩ := sfsRename_renames h (hc.root rfl id) n₁ n₂ mem
    exact ⟨o, s', hrun, hunder, fun hno => absurd rfl hno, renames_answers hrenames⟩
  | lookup v path =>
    obtain ⟨o, s', hrun, hunder, hlookups⟩ := sfsLookup_lookups h (hc.root rfl id) path mem
    exact ⟨o, s', hrun, hunder, fun hno => absurd rfl hno, lookups_answers hlookups⟩
  | lookparent v path buflen =>
    obtain ⟨o, s', hrun, hunder, hsame, -⟩ := sfsLookparent_takes h (hc.target v rfl).1 path buflen
    exact ⟨o, s', hrun, hunder, fun hno => absurd rfl hno, other_answers hsame⟩
  | transfer v u m =>
    obtain ⟨hv, hne⟩ := hc.target v rfl
    obtain ⟨o, s', hrun, hunder, ht⟩ := sfsRw_transfers h hv hne u m
    refine ⟨o, s', hrun, ?_, fun hno => absurd rfl hno, other_answers ht.files⟩
    cases hrw : u.rw with
    | read =>
      obtain rfl := ht.read hrw
      exact ⟨h, hunder.takes, .refl _ _, hunder.old⟩
    | write => exact hunder.weaken fun j hj => ⟨hrw, hj⟩
  | truncate v len =>
    obtain ⟨hv, hne⟩ := hc.target v rfl
    obtain ⟨s', hrun, ht⟩ := sfsTruncate_truncates h hv hne len
    simp only [Call.body, hrun]
    exact ⟨_, s', rfl, ht.under, fun _ => rfl, other_answers ht.files⟩
  | fsync v =>
    obtain ⟨s', hrun, hunder, hdir, -⟩ := sfsSync_syncs h (hc.target v rfl).1
    simp only [Call.body, hrun]
    exact ⟨_, s', rfl, hunder, fun _ => rfl, other_answers (files_dir hdir)⟩
  | sync =>
    obtain ⟨s', hrun, hw, -⟩ := sfsSync_writes h hl
    simp only [Call.body, hrun]
    exact ⟨_, s', rfl, hw.under, fun _ => rfl, other_answers (files_dir hw.dir)⟩

end OS161.SfsThreads
