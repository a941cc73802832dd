import OS161.VfsLookup

/-!
# The boot file system and its name

`vfs_setbootfs` takes the name of a device, adds the colon that a path to it has,
and makes the root of the device the current directory and the boot vnode. A colon
that is already there is to be at the end of the name; the test for that looks at
what begins at the colon, and that is never empty.
-/

set_option autoImplicit false

namespace OS161.VfsBootfs

open Function OS161.Vfs OS161.VfsList OS161.VfsLookup

def nameMax : ℕ := 255

/-- `S_IFDIR`. -/
def sIfdir : ℕ := 2 * 2^12

/-- `snprintf(tmp, len, "%s", s)`: the last of the `len` bytes is for the end of the string. -/
def snprintf (len : ℕ) (s : Name) : Name := s.take (len-1)

def strchr (ch : Char) : Name → Option Name
  | [] => none
  | x::xs => if x = ch then some (x::xs) else strchr ch xs

abbrev Outcome := Except Stop (Except Errno Unit × Places × Refcounts)

/-- `VOP_DECREF`, if there is a vnode. -/
def dropped (old : Option ℕ) (c : Refcounts) : Except Stop Refcounts :=
  match old with
  | none => .ok c
  | some v => vnodeDecref v c

def changeBootfs (newvn : Option ℕ) (p : Places) (c : Refcounts) : Except Stop (Places × Refcounts) :=
  match dropped p.bootfs c with
  | .error stop => .error stop
  | .ok c' => .ok ({ p with bootfs := newvn }, c')

def vfsSetcurdir (gettype : ℕ → Except Errno ℕ) (dir : ℕ) (p : Places) (c : Refcounts) : Outcome :=
  match gettype dir with
  | .error e => .ok (.error e, p, c)
  | .ok vtype =>
    if vtype ≠ sIfdir then .ok (.error .enotdir, p, c)
    else match vnodeIncref dir c with
      | .error stop => .error stop
      | .ok c' =>
        match dropped p.cwd c' with
        | .error stop => .error stop
        | .ok c'' => .ok (.ok (), { p with cwd := some dir }, c'')

def vfsChdir (a : Answers) (gettype : ℕ → Except Errno ℕ) (path : Name) (p : Places) (c : Refcounts) : Outcome :=
  match vfsLookup a p path c with
  | .error stop => .error stop
  | .ok (.error e, c') => .ok (.error e, p, c')
  | .ok (.ok vn, c') =>
    match vfsSetcurdir gettype vn p c' with
    | .error stop => .error stop
    | .ok (r, p', c'') =>
      match vnodeDecref vn c'' with
      | .error stop => .error stop
      | .ok c''' => .ok (r, p', c''')

/-- The second half of `vfs_setbootfs`, once the path in `tmp` is complete. -/
def enter (a : Answers) (gettype : ℕ → Except Errno ℕ) (tmp : Name) (p : Places) (c : Refcounts) : Outcome :=
  match vfsChdir a gettype tmp p c with
  | .error stop => .error stop
  | .ok (.error e, p', c') => .ok (.error e, p', c')
  | .ok (.ok (), p', c') =>
    match vfsGetcurdir p' c' with
    | .error stop => .error stop
    | .ok (.error e, c'') => .ok (.error e, p', c'')
    | .ok (.ok newguy, c'') =>
      match changeBootfs (some newguy) p' c'' with
      | .error stop => .error stop
      | .ok (p'', c''') => .ok (.ok (), p'', c''')

def vfsSetbootfs (a : Answers) (gettype : ℕ → Except Errno ℕ) (fsname : Name) (p : Places) (c : Refcounts) : Outcome :=
  let tmp := snprintf nameMax fsname
  match strchr ':' tmp with
  | some s => if 0 < s.length then .ok (.error .einval, p, c) else enter a gettype tmp p c
  | none => enter a gettype (tmp ++ [':']) p c

/-- What a call comes to: its result, the current directory and the boot vnode. -/
def shown (o : Outcome) : Except Stop (Except Errno Unit × Option ℕ × Option ℕ) :=
  o.map fun x => (x.1, x.2.1.cwd, x.2.1.bootfs)

def Colonless (name : Name) : Prop := ':' ∉ name

/-- A colon, and not at the end. -/
def Inner (name : Name) : Prop := ∃ d rest, name = d ++ ':' :: rest ∧ rest ≠ []

/-- Both spellings of a name come to the same, and no name has a colon inside. -/
def NamedRight (a : Answers) (gettype : ℕ → Except Errno ℕ) (p : Places) (c : Refcounts) (name : Name) : Prop :=
  (Colonless name →
    shown (vfsSetbootfs a gettype (name ++ [':']) p c) = shown (vfsSetbootfs a gettype name p c)) ∧
  (Inner name → shown (vfsSetbootfs a gettype name p c) = .ok (.error .einval, p.cwd, p.bootfs))

/-- The directory that a path leads to. -/
def directory (a : Answers) (gettype : ℕ → Except Errno ℕ) (p : Places) (start : Start) (rest : Name) : Except Errno ℕ :=
  match found a p start rest with
  | .error e => .error e
  | .ok v => match gettype v with
    | .error e => .error e
    | .ok vtype => if vtype = sIfdir then .ok v else .error .enotdir

/-- The path leads to an `EINVAL` of its own. -/
def Refused (a : Answers) (gettype : ℕ → Except Errno ℕ) (p : Places) (path : Name) : Prop :=
  ∃ start rest, Grammar path start rest ∧ directory a gettype p start rest = .error .einval

variable {a : Answers} {gettype : ℕ → Except Errno ℕ} {p p' : Places} {c c' : Refcounts} {name path s rest : Name}
  {start : Start} {v : ℕ} {ch : Char} {e : Errno} {r : Except Errno Unit}

theorem strchr_none : strchr ch s = none ↔ ch ∉ s := by
  induction s with
  | nil => simp [strchr]
  | cons x xs ih =>
    by_cases hx : x = ch
    · simp [strchr, hx]
    · have hne : ch ≠ x := fun h => hx h.symm
      simp [strchr, hx, hne, ih]

/-- The test of `vfs_setbootfs` is always passed. -/
theorem strchr_some {tail : Name} (h : strchr ch s = some tail) : 0 < tail.length := by
  induction s with
  | nil => cases h
  | cons x xs ih =>
    unfold strchr at h
    split_ifs at h
    · cases h
      exact Nat.succ_pos _
    · exact ih h

theorem setbootfs_colon (h : ':' ∈ name.take 254) :
    vfsSetbootfs a gettype name p c = .ok (.error .einval, p, c) := by
  simp only [vfsSetbootfs]
  cases hs : strchr ':' (snprintf nameMax name) with
  | none => exact absurd h (strchr_none.mp hs)
  | some tail => exact if_pos (strchr_some hs)

theorem setbootfs_plain (h : ':' ∉ name.take 254) :
    vfsSetbootfs a gettype name p c = enter a gettype (name.take 254 ++ [':']) p c := by
  have hs : strchr ':' (snprintf nameMax name) = none := strchr_none.mpr h
  simp only [vfsSetbootfs, hs]
  rfl

/-- What `vfs_setcurdir` does to a directory, if it completes. -/
theorem setcurdir_ok (htype : gettype v = .ok sIfdir) (ho : vfsSetcurdir gettype v p c = .ok (r, p', c')) :
    r = .ok () ∧ p' = { p with cwd := some v } := by
  simp only [vfsSetcurdir, htype, ne_eq, not_true_eq_false, if_false] at ho
  cases hincref : vnodeIncref v c with
  | error stop => simp [hincref] at ho
  | ok c1 =>
    cases hdropped : dropped p.cwd c1 with
    | error stop => simp [hincref, hdropped] at ho
    | ok c2 =>
      simp only [hincref, hdropped] at ho
      cases ho
      exact ⟨rfl, rfl⟩

theorem getcurdir_ok {r : Except Errno ℕ} (hcwd : p.cwd = some v) (ho : vfsGetcurdir p c = .ok (r, c')) : r = .ok v := by
  simp only [vfsGetcurdir, hcwd] at ho
  cases hincref : vnodeIncref v c with
  | error stop => simp [hincref] at ho
  | ok c1 =>
    simp only [hincref] at ho
    cases ho
    rfl

theorem changeBootfs_ok {newvn : Option ℕ} (ho : changeBootfs newvn p c = .ok (p', c')) :
    p' = { p with bootfs := newvn } := by
  unfold changeBootfs at ho
  cases hdropped : dropped p.bootfs c with
  | error stop => simp [hdropped] at ho
  | ok c1 =>
    simp only [hdropped] at ho
    cases ho
    rfl

theorem chdir_error (h : Sound a p c) (hpath : path ≠ []) (hg : Grammar path start rest)
    (hd : directory a gettype p start rest = .error e) : vfsChdir a gettype path p c = .ok (.error e, p, c) := by
  unfold vfsChdir
  rw [vfsLookup_of h hpath (grammar_parsed hg)]
  unfold directory at hd
  cases hf : found a p start rest with
  | error e' =>
    simp only [hf] at hd
    cases hd
    rfl
  | ok v =>
    simp only [hf] at hd
    simp only [settle, vfsSetcurdir]
    cases htype : gettype v with
    | error e' =>
      simp only [htype] at hd
      cases hd
      simp only [decref_acquired]
    | ok vtype =>
      simp only [htype] at hd
      split_ifs at hd with hdir
      cases hd
      simp only [ne_eq, hdir, not_false_eq_true, if_true, decref_acquired]

theorem chdir_ok (h : Sound a p c) (hpath : path ≠ []) (hg : Grammar path start rest)
    (hd : directory a gettype p start rest = .ok v) (ho : vfsChdir a gettype path p c = .ok (r, p', c')) :
    r = .ok () ∧ p' = { p with cwd := some v } := by
  unfold vfsChdir at ho
  rw [vfsLookup_of h hpath (grammar_parsed hg)] at ho
  unfold directory at hd
  cases hf : found a p start rest with
  | error e => simp [hf] at hd
  | ok u =>
    simp only [hf] at hd
    cases htype : gettype u with
    | error e => simp [htype] at hd
    | ok vtype =>
      simp only [htype] at hd
      split_ifs at hd with hdir
      cases hd
      simp only [hf, settle] at ho
      cases hset : vfsSetcurdir gettype v p (acquired v c) with
      | error stop => simp [hset] at ho
      | ok out =>
        obtain ⟨r1, p1, c1⟩ := out
        obtain ⟨rfl, rfl⟩ := setcurdir_ok (hdir ▸ htype) hset
        simp only [hset] at ho
        cases hdecref : vnodeDecref v c1 with
        | error stop => simp [hdecref] at ho
        | ok c2 =>
          simp only [hdecref] at ho
          cases ho
          exact ⟨rfl, rfl⟩

/-- If the second half completes it ends with the directory in both places. -/
theorem enter_ok (h : Sound a p c) (hpath : path ≠ []) (hg : Grammar path start rest)
    (hd : directory a gettype p start rest = .ok v) (ho : enter a gettype path p c = .ok (r, p', c')) :
    r = .ok () ∧ p' = { p with cwd := some v, bootfs := some v } := by
  unfold enter at ho
  cases hc : vfsChdir a gettype path p c with
  | error stop => simp [hc] at ho
  | ok out =>
    obtain ⟨r1, p1, c1⟩ := out
    obtain ⟨rfl, rfl⟩ := chdir_ok h hpath hg hd hc
    simp only [hc] at ho
    cases hget : vfsGetcurdir { p with cwd := some v } c1 with
    | error stop => simp [hget] at ho
    | ok got =>
      obtain ⟨r2, c2⟩ := got
      obtain rfl := getcurdir_ok rfl hget
      simp only [hget] at ho
      cases hboot : changeBootfs (some v) { p with cwd := some v } c2 with
      | error stop => simp [hboot] at ho
      | ok changed =>
        obtain ⟨p2, c3⟩ := changed
        obtain rfl := changeBootfs_ok hboot
        simp only [hboot] at ho
        cases ho
        exact ⟨rfl, rfl⟩

/-- What is seen of the second half is `EINVAL` exactly if the path leads to it. -/
theorem enter_refused_iff (h : Sound a p c) (hpath : path ≠ []) :
    shown (enter a gettype path p c) = .ok (.error .einval, p.cwd, p.bootfs) ↔ Refused a gettype p path := by
  obtain ⟨start, rest, hg⟩ := grammar_exists hpath
  have hrefused : Refused a gettype p path ↔ directory a gettype p start rest = .error .einval := by
    constructor
    · rintro ⟨start', rest', hg', hd⟩
      have heq := grammar_parsed hg'
      rw [grammar_parsed hg, Prod.mk.injEq] at heq
      rwa [heq.1, heq.2]
    · intro hd
      exact ⟨start, rest, hg, hd⟩
  rw [hrefused]
  cases hd : directory a gettype p start rest with
  | error e =>
    unfold enter
    rw [chdir_error h hpath hg hd]
    simp [shown, Except.map]
  | ok v =>
    refine iff_of_false ?_ (by simp)
    intro hshown
    cases ho : enter a gettype path p c with
    | error stop => simp [ho, shown, Except.map] at hshown
    | ok out =>
      obtain ⟨r, p', c'⟩ := out
      obtain ⟨rfl, -⟩ := enter_ok h hpath hg hd ho
      simp [ho, shown, Except.map] at hshown

/-- A name has the colon to its right left off only if it has filled the buffer. -/
theorem colon_kept_iff (hname : Colonless name) : ':' ∈ (name ++ [':']).take 254 ↔ name.length < 254 := by
  rw [List.take_append, List.mem_append]
  constructor
  · rintro (hmem | hmem)
    · exact absurd (List.mem_of_mem_take hmem) hname
    · by_contra hlong
      rw [show 254 - name.length = 0 by omega] at hmem
      cases hmem
  · intro hshort
    refine .inr ?_
    rw [List.take_of_length_le (by simp; omega)]
    exact List.mem_singleton.mpr rfl

/-- With one colon after it a name is refused, unless the colon does not fit: so
the spellings come to the same exactly if the other one is refused, too. -/
theorem spellings_iff (h : Sound a p c) (hname : Colonless name) :
    shown (vfsSetbootfs a gettype (name ++ [':']) p c) = shown (vfsSetbootfs a gettype name p c) ↔
      254 ≤ name.length ∨ Refused a gettype p (name ++ [':']) := by
  have hplain : ':' ∉ name.take 254 := fun hmem => hname (List.mem_of_mem_take hmem)
  by_cases hshort : name.length < 254
  · rw [setbootfs_colon ((colon_kept_iff hname).mpr hshort), setbootfs_plain hplain,
      List.take_of_length_le (by omega), or_iff_right (by omega), ← enter_refused_iff h (by simp)]
    exact eq_comm
  · have hlong : 254 ≤ name.length := by omega
    have hcut : (name ++ [':']).take 254 = name.take 254 := List.take_append_of_le_length hlong
    refine iff_of_true ?_ (.inl hlong)
    rw [setbootfs_plain hplain, setbootfs_plain (by rw [hcut]; exact hplain), hcut]

/-- A colon inside is seen if it comes before the end of the buffer. -/
theorem inner_iff (h : Sound a p c) :
    shown (vfsSetbootfs a gettype name p c) = .ok (.error .einval, p.cwd, p.bootfs) ↔
      ':' ∈ name.take 254 ∨ Refused a gettype p (name.take 254 ++ [':']) := by
  by_cases hcolon : ':' ∈ name.take 254
  · rw [setbootfs_colon hcolon]
    exact iff_of_true rfl (.inl hcolon)
  · rw [setbootfs_plain hcolon, enter_refused_iff h (by simp), or_iff_right hcolon]

/-- A name and the name with a colon after it come to the same exactly if the
colon does not fit or the name is refused for another reason, and a colon inside
a name is refused exactly if it fits. -/
theorem setbootfs_right_iff (a : Answers) (gettype : ℕ → Except Errno ℕ) (p : Places) (c : Refcounts)
    (h : Sound a p c) (name : Name) :
    NamedRight a gettype p c name ↔
      (Colonless name → 254 ≤ name.length ∨ Refused a gettype p (name ++ [':'])) ∧
      (Inner name → ':' ∈ name.take 254 ∨ Refused a gettype p (name.take 254 ++ [':'])) :=
  and_congr (imp_congr_right fun hname => spellings_iff h hname) (imp_congr_right fun _ => inner_iff h)

/-- The disk before anything has been made the boot file system. -/
def unbooted : Places := { disk with bootfs := none, cwd := none }

theorem unbooted_sound : Sound diskAnswers unbooted fun _ => 1 where
  devices := disk_sound.devices
  boot := fun _ _ => Nat.one_ne_zero
  cwd := fun _ h => by cases h

def directories : ℕ → Except Errno ℕ := fun _ => .ok sIfdir

/-- A colon inside a name is refused. -/
theorem inside_refused : NamedRight diskAnswers directories unbooted (fun _ => 1) ['d', ':', 'x'] :=
  (setbootfs_right_iff diskAnswers directories unbooted (fun _ => 1) unbooted_sound ['d', ':', 'x']).mpr
    ⟨fun h => absurd (by simp) h, fun _ => .inl (by decide)⟩

/-- The disk can be booted from by its name, but not with the colon. -/
theorem ending_refused : ¬ NamedRight diskAnswers directories unbooted (fun _ => 1) ['d'] := by
  intro h
  have heq := h.1 (by simp [Colonless])
  have hcolon : shown (vfsSetbootfs diskAnswers directories (['d'] ++ [':']) unbooted fun _ => 1) =
      .ok (.error .einval, none, none) := rfl
  have hplain : shown (vfsSetbootfs diskAnswers directories ['d'] unbooted fun _ => 1) =
      .ok (.ok (), some 1, some 1) := rfl
  rw [hcolon, hplain] at heq
  cases heq

end OS161.VfsBootfs
