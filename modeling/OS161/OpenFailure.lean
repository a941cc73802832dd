import OS161.LocalCounts

/-!
# What a failed open leaves behind

`sys_open` takes a vnode reference, then an entry of the global table, then a
slot of the caller's table, and may fail at each. A failure inside `vfs_open`
leaves nothing. A failure in the global section leaves the reference. A
failure in the local section is undone by `file_destroy`, which decides by the
vnode's count whether the global entry is to go; the count tells it the wrong
thing when a `File` had just been created for a vnode that someone else holds.
-/

set_option autoImplicit false

namespace OS161.OpenFailure

open Function OS161.Slots OS161.Vfs OS161.FileTable OS161.FileOwnership
open OS161.FileClosing OS161.FileOpening OS161.FileRuns OS161.LocalCounts

structure Unchanged (p : ℕ) (s s' : State) : Prop where
  refcount : s'.refcount = s.refcount
  table : s'.table = s.table
  own : s'.locals p = s.locals p

/-- The state in which `vfs_open` has returned the vnode. -/
def looked (vn : ℕ) (s : State) : State := { s with refcount := acquired vn s.refcount }

variable {s : State}

theorem findFile_looked (vn w : ℕ) (is : List (Fin MAX_GLOBAL_TABLE_SIZE)) :
    findFile w (looked vn s) is = findFile w s is := by
  induction is with
  | nil => rfl
  | cons i is ih =>
    simp only [findFile, looked] at ih ⊢
    rw [ih]

theorem findFile_found {vn file : ℕ} {is : List (Fin MAX_GLOBAL_TABLE_SIZE)}
    (h : findFile vn s is = .ok (some file)) :
    ∃ j f, s.table.files j = some file ∧ s.files.get file = some f ∧ f.node = some vn := by
  induction is with
  | nil => cases h
  | cons i is ih =>
    simp only [findFile] at h
    split at h
    · exact ih h
    · next g hg =>
      split at h
      · cases h
      · next f hf =>
        split at h
        · next hv =>
          cases h
          exact ⟨i, f, hg, hf, hv⟩
        · exact ih h

theorem findFile_missing {vn : ℕ} {is : List (Fin MAX_GLOBAL_TABLE_SIZE)}
    (h : findFile vn s is = .ok none) :
    ∀ j ∈ is, ∀ file, s.table.files j = some file → s.files.live file = true := by
  induction is with
  | nil => simp
  | cons i is ih =>
    simp only [findFile] at h
    intro j hj file hfile
    rcases List.mem_cons.mp hj with rfl | hmem
    · rw [hfile] at h
      simp only at h
      split at h
      · cases h
      · next f hf => exact (Store.get_some.mp hf).1
    · split at h
      · exact ih h j hmem file hfile
      · split at h
        · cases h
        · split at h
          · cases h
          · exact ih h j hmem file hfile

theorem acquired_ne (vn : ℕ) (c : Refcounts) : acquired vn c ≠ c := by
  intro h
  have hv := congrFun h vn
  simp [acquired] at hv

theorem addFile_stores {p : ℕ} {mem : Bool} (file flags : ℕ) (h : stores p mem s) :
    ∃ i s', localTableAddFile p file flags mem s = (.ok i, s') := by
  obtain ⟨hn, rfl, i, hi⟩ := h
  cases hf : firstFree (s.locals p).files with
  | none => exact absurd hi (firstFree_eq_none.mp hf i)
  | some j => exact ⟨j, _, addFile_slot hn hf⟩

/-- When nothing is stored the call fails, and at most a descriptor has been
allocated. -/
theorem addFile_fails {p : ℕ} {mem : Bool} (file flags : ℕ) (h : ¬ stores p mem s) :
    ∃ e s', localTableAddFile p file flags mem s = (.error e, s') ∧
      (s' = s ∨ s' = described file flags s) := by
  by_cases hn : (s.locals p).numOpenFiles = MAX_LOCAL_TABLE_SIZE
  · exact ⟨_, _, addFile_full hn, .inl rfl⟩
  · cases mem with
    | false => exact ⟨_, _, addFile_noMem hn, .inl rfl⟩
    | true =>
      cases hf : firstFree (s.locals p).files with
      | none => exact ⟨_, _, addFile_noSlot hn hf, .inr rfl⟩
      | some j => exact absurd ⟨hn, rfl, j, (firstFree_eq_some.mp hf).1⟩ h

/-- The local section and the undoing of its failure. -/
def openRest (p file flags : ℕ) (mem : Bool) (s : State) :
    Except Stop (Except Errno (Fin MAX_LOCAL_TABLE_SIZE) × State) :=
  match localTableAddFile p file flags mem s with
  | (.ok i, s') => .ok (.ok i, s')
  | (.error e, s') =>
    match fileDestroy file s' with
    | .error stop => .error stop
    | .ok (_, s'') => .ok (.error e, s'')

theorem openRest_stores {p : ℕ} {mem : Bool} (file flags : ℕ) (h : stores p mem s) :
    ∃ i s', openRest p file flags mem s = .ok (.ok i, s') := by
  obtain ⟨i, s', hadd⟩ := addFile_stores file flags h
  exact ⟨i, s', by simp [openRest, hadd]⟩

theorem fileDestroy_std {file : ℕ} {f : File} (hget : s.files.get file = some f)
    (hstd : f.isStandard = true) : fileDestroy file s = .ok (false, s) := by
  simp [fileDestroy, hget, hstd]

theorem fileDestroy_acquired {file vn : ℕ} {f : File} {c : Refcounts}
    (hget : s.files.get file = some f) (hstd : f.isStandard = false) (hv : f.node = some vn)
    (hc : s.refcount = acquired vn c) :
    fileDestroy file s = .ok (if c vn = 0
      then (true, { s with refcount := c, table := removeFile file s.table, files := s.files.free file })
      else (false, { s with refcount := c })) := by
  have hclose : vfsClose vn s.refcount = .ok c := by
    rw [hc]
    exact decref_acquired vn c
  have hone : s.refcount vn = 1 ↔ c vn = 0 := by
    rw [hc]
    simp [acquired]
  by_cases hz : c vn = 0
  · simp [fileDestroy, hget, hstd, hv, hclose, hone.mpr hz, hz]
  · have hne : s.refcount vn ≠ 1 := fun h => hz (hone.mp h)
    simp [fileDestroy, hget, hstd, hv, hclose, hne, hz]

theorem openRest_error {p file flags : ℕ} {mem b : Bool} {e : Errno} {u v : State}
    (hadd : localTableAddFile p file flags mem s = (.error e, u))
    (hdes : fileDestroy file u = .ok (b, v)) : openRest p file flags mem s = .ok (.error e, v) := by
  simp only [openRest, hadd, hdes]

/-- A failure of the local section, and what is left of the state once
`file_destroy` has undone what it undoes. -/
theorem openRest_fails {p file vn : ℕ} {mem : Bool} {f : File} {c : Refcounts} (flags : ℕ)
    (h : ¬ stores p mem s) (hget : s.files.get file = some f) (hv : f.node = some vn)
    (hc : s.refcount = acquired vn c) :
    ∃ e s', openRest p file flags mem s = .ok (.error e, s') ∧ s'.locals = s.locals ∧
      (f.isStandard = true → s'.refcount = s.refcount) ∧
      (f.isStandard = false → s'.refcount = c ∧
        s'.table = if c vn = 0 then removeFile file s.table else s.table) := by
  obtain ⟨e, u, hadd, hu⟩ := addFile_fails file flags h
  have hsame : u.files = s.files ∧ u.refcount = s.refcount ∧ u.table = s.table ∧ u.locals = s.locals := by
    rcases hu with rfl | rfl <;> exact ⟨rfl, rfl, rfl, rfl⟩
  obtain ⟨hfiles, hcount, htable, hlocals⟩ := hsame
  rw [← hfiles] at hget
  rw [← hcount] at hc
  cases hstd : f.isStandard with
  | true =>
    refine ⟨e, u, openRest_error hadd (fileDestroy_std hget hstd), hlocals, fun _ => hcount, ?_⟩
    intro hx
    cases hx
  | false =>
    have hdes := fileDestroy_acquired hget hstd hv hc
    by_cases hz : c vn = 0
    · rw [if_pos hz] at hdes
      refine ⟨e, _, openRest_error hadd hdes, hlocals, ?_, fun _ => ⟨rfl, ?_⟩⟩
      · intro hx
        cases hx
      · rw [if_pos hz, ← htable]
    · rw [if_neg hz] at hdes
      refine ⟨e, _, openRest_error hadd hdes, hlocals, ?_, fun _ => ⟨rfl, ?_⟩⟩
      · intro hx
        cases hx
      · rw [if_neg hz, ← htable]

theorem removeFile_insertFile {file : ℕ} {t : GlobalFileTable} {i : Fin MAX_GLOBAL_TABLE_SIZE}
    (hi : firstFree t.files = some i) (hnew : ∀ j, t.files j ≠ some file) :
    removeFile file (insertFile file t) = t := by
  have hindex : indexOf file (update t.files i (some file)) = some i := by
    rw [indexOf_eq_some]
    refine ⟨update_self .., ?_⟩
    intro j hj
    rw [update_of_ne (Fin.ne_of_lt hj)]
    exact hnew j
  have hback : update t.files i none = t.files := by
    rw [update_eq_self_iff]
    exact (firstFree_eq_some.mp hi).1.symm
  rw [insertFile_entry file hi]
  simp [removeFile, hindex, hback]

theorem removeFile_insertFile_full {file : ℕ} {t : GlobalFileTable}
    (hi : firstFree t.files = none) (hnew : ∀ j, t.files j ≠ some file) :
    removeFile file (insertFile file t) ≠ t := by
  have hindex : indexOf file t.files = none := indexOf_eq_none.mpr hnew
  intro h
  have hn := congrArg GlobalFileTable.numOpenFiles h
  simp [insertFile, hi, removeFile, hindex] at hn

theorem insertFile_ne (file : ℕ) (t : GlobalFileTable) : insertFile file t ≠ t := by
  intro h
  have hn := congrArg GlobalFileTable.numOpenFiles h
  cases hi : firstFree t.files <;> simp [insertFile, hi] at hn

theorem removeFile_ne {file : ℕ} {t : GlobalFileTable} {j : Fin MAX_GLOBAL_TABLE_SIZE}
    (hj : t.files j = some file) : removeFile file t ≠ t := by
  intro h
  cases hi : indexOf file t.files with
  | none => exact indexOf_eq_none.mp hi j hj
  | some i =>
    have hn := congrArg GlobalFileTable.numOpenFiles h
    simp [removeFile, hi] at hn

/-- The conditions under which an open that has obtained `vn` leaves nothing
behind if it fails. A scan of the global table that meets a freed `File` does
not return. -/
def Undone (p vn : ℕ) (fileMem descMem : Bool) (s : State) : Prop :=
  s.table.numOpenFiles ≠ MAX_GLOBAL_TABLE_SIZE ∧
  match findFile vn s (List.finRange _) with
  | .error _ => True
  | .ok (some file) => stores p descMem s ∨
      (s.refcount vn ≠ 0 ∧ ∀ f, s.files.get file = some f → f.isStandard = false)
  | .ok none => fileMem = true ∧
      (stores p descMem s ∨ (s.refcount vn = 0 ∧ ∃ i, s.table.files i = none))

/-- `sys_open` after `vfs_open`. -/
def openFrom (p vn flags : ℕ) (fileMem descMem : Bool) (s : State) :
    Except Stop (Except Errno (Fin MAX_LOCAL_TABLE_SIZE) × State) :=
  match globalTableOpenFile vn fileMem (looked vn s) with
  | .error e => .error e
  | .ok (.error e, s') => .ok (.error e, s')
  | .ok (.ok file, s') => openRest p file flags descMem s'

/-- Failing without a trace. -/
def Clean (p : ℕ) (s : State)
    (r : Except Stop (Except Errno (Fin MAX_LOCAL_TABLE_SIZE) × State)) : Prop :=
  ∀ e s', r = .ok (.error e, s') → Unchanged p s s'

theorem clean_error {p : ℕ} {e : Errno} {s' : State} : Clean p s (.ok (.error e, s')) ↔ Unchanged p s s' := by
  constructor
  · intro h
    exact h e s' rfl
  · intro h e' u he
    cases he
    exact h

theorem clean_stop (p : ℕ) (s : State) (stop : Stop) : Clean p s (.error stop) := by
  intro e s' h
  cases h

theorem clean_ok (p : ℕ) (s : State) (i : Fin MAX_LOCAL_TABLE_SIZE) (s' : State) :
    Clean p s (.ok (.ok i, s')) := by
  intro e u h
  cases h

theorem looked_changed {p vn : ℕ} : ¬ Unchanged p s (looked vn s) := by
  intro h
  exact acquired_ne vn s.refcount h.refcount

theorem openRest_found_clean {p vn file flags : ℕ} {mem : Bool}
    (hfind : findFile vn s (List.finRange _) = .ok (some file)) :
    Clean p s (openRest p file flags mem (looked vn s)) ↔ stores p mem s ∨
      (s.refcount vn ≠ 0 ∧ ∀ f, s.files.get file = some f → f.isStandard = false) := by
  obtain ⟨j, f, hj, hget, hv⟩ := findFile_found hfind
  by_cases hst : stores p mem s
  · obtain ⟨i, s', hrest⟩ := openRest_stores (s := looked vn s) file flags hst
    rw [hrest]
    exact ⟨fun _ => .inl hst, fun _ => clean_ok p s i s'⟩
  · obtain ⟨e, s', hrest, hl, hstd, huser⟩ :=
      openRest_fails (s := looked vn s) flags hst hget hv rfl
    rw [hrest, clean_error]
    constructor
    · intro h
      have hf : f.isStandard = false := by
        by_contra ht
        have hcount := hstd (by simpa using ht)
        exact acquired_ne vn s.refcount (hcount.symm.trans h.refcount)
      refine .inr ⟨?_, ?_⟩
      · intro hz
        have htable := (huser hf).2
        rw [if_pos hz, h.table] at htable
        exact removeFile_ne hj htable.symm
      · intro g hg
        rw [hget] at hg
        cases hg
        exact hf
    · rintro (hx | ⟨hpos, hf⟩)
      · exact absurd hx hst
      · obtain ⟨hcount, htable⟩ := huser (hf f hget)
        rw [if_neg hpos] at htable
        exact ⟨hcount, htable, congrFun hl p⟩

theorem openRest_created_clean {p vn flags : ℕ} {mem : Bool}
    (hfind : findFile vn s (List.finRange _) = .ok none) :
    Clean p s (openRest p s.files.next flags mem (opened vn (looked vn s))) ↔
      stores p mem s ∨ (s.refcount vn = 0 ∧ ∃ i, s.table.files i = none) := by
  have hnew : ∀ j, s.table.files j ≠ some s.files.next := by
    intro j hj
    have hlt := s.files.live_lt (findFile_missing hfind j (List.mem_finRange j) _ hj)
    omega
  have hget : (opened vn (looked vn s)).files.get s.files.next = some ⟨some vn, false⟩ :=
    Store.alloc_get_self s.files _
  by_cases hst : stores p mem s
  · obtain ⟨i, s', hrest⟩ := openRest_stores (s := opened vn (looked vn s)) s.files.next flags hst
    rw [hrest]
    exact ⟨fun _ => .inl hst, fun _ => clean_ok p s i s'⟩
  · obtain ⟨e, s', hrest, hl, -, huser⟩ :=
      openRest_fails (s := opened vn (looked vn s)) flags hst hget rfl rfl
    obtain ⟨hcount, htable⟩ := huser rfl
    have htab : (opened vn (looked vn s)).table = insertFile s.files.next s.table := rfl
    rw [htab] at htable
    rw [hrest, clean_error]
    constructor
    · intro h
      rw [h.table] at htable
      by_cases hz : s.refcount vn = 0
      · rw [if_pos hz] at htable
        refine .inr ⟨hz, ?_⟩
        cases hi : firstFree s.table.files with
        | none => exact absurd htable.symm (removeFile_insertFile_full hi hnew)
        | some i => exact ⟨i, (firstFree_eq_some.mp hi).1⟩
      · rw [if_neg hz] at htable
        exact absurd htable.symm (insertFile_ne _ _)
    · rintro (hx | ⟨hz, i, hi⟩)
      · exact absurd hx hst
      · rw [if_pos hz] at htable
        cases hf : firstFree s.table.files with
        | none => exact absurd hi (firstFree_eq_none.mp hf i)
        | some j =>
          rw [removeFile_insertFile hf hnew] at htable
          exact ⟨hcount, htable, congrFun hl p⟩

theorem openFrom_clean (p vn flags : ℕ) (fileMem descMem : Bool) (s : State) :
    Clean p s (openFrom p vn flags fileMem descMem s) ↔ Undone p vn fileMem descMem s := by
  by_cases hfull : s.table.numOpenFiles = MAX_GLOBAL_TABLE_SIZE
  · have hopen : openFrom p vn flags fileMem descMem s = .ok (.error .enfile, looked vn s) := by
      have hfull' : (looked vn s).table.numOpenFiles = MAX_GLOBAL_TABLE_SIZE := hfull
      rw [openFrom, globalTableOpenFile, if_pos hfull']
    rw [hopen, clean_error]
    exact ⟨fun h => absurd h looked_changed, fun h => absurd hfull h.1⟩
  · have hfull' : ¬ (looked vn s).table.numOpenFiles = MAX_GLOBAL_TABLE_SIZE := hfull
    cases hfind : findFile vn s (List.finRange _) with
    | error stop =>
      have hopen : openFrom p vn flags fileMem descMem s = .error stop := by
        rw [openFrom, globalTableOpenFile, if_neg hfull', findFile_looked, hfind]
      rw [hopen]
      simp [Undone, hfind, clean_stop]
      exact hfull
    | ok found =>
      cases found with
      | some file =>
        have hopen : openFrom p vn flags fileMem descMem s =
            openRest p file flags descMem (looked vn s) := by
          rw [openFrom, globalTableOpenFile, if_neg hfull', findFile_looked, hfind]
        rw [hopen, openRest_found_clean hfind, Undone, hfind]
        exact ⟨fun h => ⟨hfull, h⟩, fun h => h.2⟩
      | none =>
        cases fileMem with
        | false =>
          have hopen : openFrom p vn flags false descMem s = .ok (.error .enospc, looked vn s) := by
            rw [openFrom, globalTableOpenFile, if_neg hfull', findFile_looked, hfind]
            rfl
          rw [hopen, clean_error, Undone, hfind]
          exact ⟨fun h => absurd h looked_changed, fun h => Bool.noConfusion h.2.1⟩
        | true =>
          have hopen : openFrom p vn flags true descMem s =
              openRest p s.files.next flags descMem (opened vn (looked vn s)) := by
            rw [openFrom, globalTableOpenFile, if_neg hfull', findFile_looked, hfind]
            rfl
          rw [hopen, openRest_created_clean hfind, Undone, hfind]
          exact ⟨fun h => ⟨hfull, rfl, h⟩, fun h => h.2.2⟩

/-- A failed `sys_open` leaves reference counts, the global table and the
caller's table as they were if and only if it failed before it had a vnode, or
what it had done by then is of the kind that gets undone. -/
theorem sysOpen_unchanged_iff (fs : FileSystems) (p : ℕ) (filename : UserString) (flags : ℕ)
    (fileMem descMem : Bool) (s : State) :
    (∀ e s', sysOpen fs p filename flags fileMem descMem s = .ok (.error e, s') → Unchanged p s s') ↔
    ∀ path vn c, filename = some (.ok path) → vfsOpen fs path flags s.refcount = .ok (.ok vn, c) →
      Undone p vn fileMem descMem s := by
  show Clean p s (sysOpen fs p filename flags fileMem descMem s) ↔ _
  have hself : Unchanged p s s := ⟨rfl, rfl, rfl⟩
  cases filename with
  | none =>
    refine ⟨fun _ path vn c h => (by cases h), fun _ => ?_⟩
    exact clean_error.mpr hself
  | some copied =>
    cases copied with
    | error e =>
      refine ⟨fun _ path vn c h => (by cases h), fun _ => ?_⟩
      exact clean_error.mpr hself
    | ok path =>
      rcases vfsOpen_spec fs path flags s.refcount with ⟨e, hopen⟩ | ⟨vn, hopen⟩
      · have hcall : sysOpen fs p (some (.ok path)) flags fileMem descMem s = .ok (.error e, s) := by
          simp only [sysOpen, hopen]
        rw [hcall, clean_error]
        refine ⟨fun _ path' vn c hp hv => ?_, fun _ => hself⟩
        cases hp
        rw [hopen] at hv
        cases hv
      · have hcall : sysOpen fs p (some (.ok path)) flags fileMem descMem s =
            openFrom p vn flags fileMem descMem s := by
          simp only [sysOpen, hopen]
          rfl
        rw [hcall, openFrom_clean]
        constructor
        · intro h path' w c hp hv
          cases hp
          rw [hopen] at hv
          cases hv
          exact h
        · intro h
          exact h path vn _ rfl hopen

/-- Every lookup succeeds and finds vnode 7. -/
def oneFile : FileSystems where
  lookparent := fun name => .ok (8, name)
  creat := fun _ _ _ => .ok 7
  lookup := fun _ => .ok 7
  eachopen := fun _ _ => none
  truncate := fun _ => none

/-- A process fresh from the menu opens a file when no memory is left for the
`File`: the call fails and the vnode keeps the reference. -/
theorem sysOpen_enospc_leaks :
    ∃ t, run [.runprogram (some 9)] (boot console) = .ok t ∧
    ∃ r, sysOpen oneFile 0 (some (.ok "f")) O_RDONLY false true t.ft = .ok r ∧
      r.1 = .error .enospc ∧ t.ft.refcount 7 = 0 ∧ r.2.refcount 7 = 1 ∧ ¬ Unchanged 0 t.ft r.2 := by
  have hrun : ∃ t, run [.runprogram (some 9)] (boot console) = .ok t ∧
      ∃ r, sysOpen oneFile 0 (some (.ok "f")) O_RDONLY false true t.ft = .ok r ∧
        r.1 = .error .enospc ∧ t.ft.refcount 7 = 0 ∧ r.2.refcount 7 = 1 := by
    decide +kernel
  obtain ⟨t, ht, r, hr, herr, hbefore, hafter⟩ := hrun
  refine ⟨t, ht, r, hr, herr, hbefore, hafter, ?_⟩
  intro h
  rw [h.refcount, hbefore] at hafter
  cases hafter

end OS161.OpenFailure
