import OS161.FileClosing

/-!
# Taking references

The rules for the functions that add references: the copy made for a forked
process, `dup2`, and the two halves of `open`. The copy references only the
vnodes of the slots from 3 on, so its rule leaves the difference to the caller.
-/

set_option autoImplicit false

namespace OS161.FileOpening

open Function OS161.Slots OS161.Vfs OS161.FileTable OS161.FileOwnership
open OS161.FileClosing

variable {n : ℕ} {hand : ℕ → ℕ} {held : ℕ → Prop} {s : State}

theorem descVnode_valid (h : Heaps s) {d : ℕ} (hd : ValidDesc s d) :
    descVnode d s = .ok (descNode s d) := by
  by_cases hlt : d < 3
  · obtain ⟨flags, hget⟩ := h.std_desc d hlt
    rw [std_node h hlt]
    simp [descVnode, hget, h.std_file d hlt]
  · obtain ⟨fd, vn, hget, hheld, hv, hnode⟩ := validDesc_user hd (by omega) h
    obtain ⟨f, w, hf, -, hw, hw'⟩ := user_node h hheld
    rw [hv] at hw'
    simp [descVnode, hget, hf, hw, hnode, hw']

theorem refcount_pos {p vn d : ℕ} {i : Handle} (h : Owned n hand held s) (hp : p < n)
    (hd : s.slot p i = some d) (hv : descNode s d = some vn) : s.refcount vn ≠ 0 := by
  have hpos : 0 < tableRefs s n vn := tableRefs_pos hp hd hv
  have hc := h.counts vn
  omega

/-- The references the listed slots of a table hold. -/
def listRefs (s : State) (p : ℕ) (is : List Handle) (vn : ℕ) : ℕ :=
  (is.map (fun i => (s.slot p i).elim 0 (fun d => pointsTo (descNode s d) vn))).sum

theorem increfSlots_owned {src : ℕ} (hp : src < n) (is : List Handle) (h : Owned n hand held s) :
    ∃ c, increfSlots src is s = .ok { s with refcount := c } ∧
      Owned n (fun vn => hand vn + listRefs s src is vn) held { s with refcount := c } := by
  induction is generalizing s hand with
  | nil => exact ⟨s.refcount, rfl, by simpa [listRefs] using h⟩
  | cons i is ih =>
    cases hd : s.slot src i with
    | none =>
      obtain ⟨c, hc, ho⟩ := ih h
      exact ⟨c, by simp [increfSlots, hd, hc], by simpa [listRefs, hd] using ho⟩
    | some d =>
      have hnode := descVnode_valid h.heap (h.slots src hp i d hd)
      cases hv : descNode s d with
      | none =>
        obtain ⟨c, hc, ho⟩ := ih h
        refine ⟨c, by simp [increfSlots, hd, hnode, hv, hc], ?_⟩
        simpa [listRefs, hd, hv, pointsTo] using ho
      | some vn =>
        obtain ⟨c₁, hc₁, ho₁⟩ := h.incref (refcount_pos h hp hd hv)
        obtain ⟨c, hc, ho⟩ := ih ho₁
        refine ⟨c, by simp only [increfSlots, hd, hnode, hv, hc₁, hc], ?_⟩
        have hsum : (fun w => plus hand (some vn) w + listRefs { s with refcount := c₁ } src is w) =
            fun w => hand w + listRefs s src (i::is) w := by
          funext w
          have hrest : listRefs { s with refcount := c₁ } src is w = listRefs s src is w := rfl
          have hcons : listRefs s src (i::is) w = pointsTo (some vn) w + listRefs s src is w := by
            simp [listRefs, hd, hv]
          rw [hrest, hcons, plus, add_assoc]
        rwa [hsum] at ho

/-- Tables numbered `n` and above are not yet accounted for. -/
theorem beyond_owned {q : ℕ} (h : Owned n hand held s) (hq : n ≤ q) (t : LocalFileTable) :
    Owned n hand held { s with locals := update s.locals q t } := by
  have hsame : SameHeap s { s with locals := update s.locals q t } := ⟨rfl, rfl, rfl⟩
  have hlocal : ∀ p < n, update s.locals q t p = s.locals p := by
    intro p hp
    exact update_of_ne (by omega) _ _
  refine ⟨hsame.heaps h.heap, ?_, fun f hf => hsame.held (h.pinned f hf), ?_⟩
  · intro p hp i d hd
    apply hsame.valid (h.slots p hp i d _)
    simpa [State.slot, hlocal p hp] using hd
  · intro vn
    have hsum : tableRefs { s with locals := update s.locals q t } n vn = tableRefs s n vn := by
      apply total_congr
      intro p hp
      exact hsame.slotRefs (congrArg LocalFileTable.files (hlocal p hp)) vn
    rw [hsum]
    exact h.counts vn

/-- A new process's table takes over the references its slots need. -/
theorem push_owned (h : Owned n (fun vn => hand vn + slotRefs s vn n) held s)
    (hslots : ∀ i d, s.slot n i = some d → ValidDesc s d) : Owned (n+1) hand held s := by
  refine ⟨h.heap, ?_, h.pinned, ?_⟩
  · intro p hp i d hd
    by_cases hpn : p = n
    · subst hpn
      exact hslots i d hd
    · exact h.slots p (by omega) i d hd
  · intro vn
    have hc := h.counts vn
    simp only [tableRefs, total_succ] at *
    omega

theorem dupInto_owned {p d : ℕ} {new : Handle} (h : Owned n hand held s) (hp : p < n)
    (hnew : s.slot p new = none) (hd : ValidDesc s d)
    (hpos : ∀ vn, descNode s d = some vn → s.refcount vn ≠ 0) :
    ∃ s', dupInto p new d s = .ok s' ∧ Owned n hand held s' := by
  by_cases hlt : d < 3
  · obtain ⟨flags, hget⟩ := h.heap.std_desc d hlt
    have hne : (d : ℤ) ≠ -1 := by omega
    have ho : Owned n (plus hand (descNode s d)) held s := by
      rwa [std_node h.heap hlt, plus_none]
    refine ⟨_, ?_, (ho.install hp hnew hd).setNum p (((s.setSlot p new (some d)).locals p).numOpenFiles+1)⟩
    simp [dupInto, hget, hne]
  · obtain ⟨fd, vn, hget, hheld, hv, hnode⟩ := validDesc_user hd (by omega) h.heap
    have hstd := (h.heap.user_desc d fd (by omega) (Store.get_some.mp hget).2).1
    obtain ⟨c, hc, ho⟩ := h.incref (hpos vn hnode)
    have hnode' : descVnode d (s.setSlot p new (some d)) = .ok (some vn) := by
      have := descVnode_valid h.heap hd
      rwa [hnode] at this
    have ho' : Owned n (plus hand (descNode { s with refcount := c } d)) held { s with refcount := c } := by
      have heq : descNode { s with refcount := c } d = descNode s d := rfl
      rwa [heq, hnode]
    refine ⟨_, ?_, (ho'.install hp hnew ((sameHeap_refcount s c).valid hd)).setNum p
      ((s.locals p).numOpenFiles+1)⟩
    simp only [dupInto, setSlot_descs, hget, hstd, if_true, hnode', setSlot_refcount, hc]
    simp [State.setSlot]

/-- The scan of the global table completes and answers with a file of the
vnode if and only if the scanned part has one. -/
theorem findFile_spec (h : Heaps s) (vn : ℕ) (is : List (Fin MAX_GLOBAL_TABLE_SIZE)) :
    (∃ file, findFile vn s is = .ok (some file) ∧ (∃ j, s.table.files j = some file) ∧
      fileNode s file = some vn) ∨
    (findFile vn s is = .ok none ∧
      ∀ j ∈ is, ∀ file, s.table.files j = some file → fileNode s file ≠ some vn) := by
  induction is with
  | nil => exact .inr ⟨rfl, by simp⟩
  | cons i is ih =>
    cases hi : s.table.files i with
    | none =>
      simp only [findFile, hi]
      rcases ih with hfound | ⟨hnone, hmiss⟩
      · exact .inl hfound
      · refine .inr ⟨hnone, ?_⟩
        intro j hj file hfile
        rcases List.mem_cons.mp hj with rfl | hj
        · rw [hi] at hfile
          cases hfile
        · exact hmiss j hj file hfile
    | some file =>
      have hl := h.table_live i file hi
      obtain ⟨f, hcell⟩ := s.files.live_cell file hl
      have hget : s.files.get file = some f := Store.get_some.mpr ⟨hl, hcell⟩
      have hnode : fileNode s file = f.node := by simp [fileNode, hcell]
      simp only [findFile, hi, hget]
      by_cases hv : f.node = some vn
      · exact .inl ⟨file, by simp [hv], ⟨i, hi⟩, hnode.trans hv⟩
      · simp only [hv, if_false]
        rcases ih with hfound | ⟨hnone, hmiss⟩
        · exact .inl hfound
        · refine .inr ⟨hnone, ?_⟩
          intro j hj g hg
          rcases List.mem_cons.mp hj with rfl | hj
          · rw [hi] at hg
            cases hg
            rwa [hnode]
          · exact hmiss j hj g hg

theorem table_held (h : Heaps s) {file vn : ℕ} (hj : ∃ j, s.table.files j = some file)
    (hv : fileNode s file = some vn) : Held s file := by
  obtain ⟨j, hj⟩ := hj
  refine ⟨?_, h.table_live j file hj, j, hj⟩
  by_contra hlt
  have hstd := h.std_file file (by omega)
  simp [fileNode, (Store.get_some.mp hstd).2] at hv

/-- A new file for a vnode that has none, put into the first free slot. -/
def opened (vn : ℕ) (s : State) : State :=
  { s with files := s.files.alloc ⟨some vn, false⟩, table := insertFile s.files.next s.table }

theorem opened_fileNode (vn : ℕ) {f : ℕ} (hf : f ≠ s.files.next) :
    fileNode (opened vn s) f = fileNode s f := by
  simp [fileNode, opened, Store.alloc_cell hf]

theorem opened_fileNode_self (vn : ℕ) : fileNode (opened vn s) s.files.next = some vn := by
  simp [fileNode, opened]

theorem files_next_ge (h : Heaps s) : 3 ≤ s.files.next := by
  have hstd := h.std_file 2 (by decide)
  exact s.files.live_lt (Store.get_some.mp hstd).1

theorem descs_next_ge (h : Heaps s) : 3 ≤ s.descs.next := by
  obtain ⟨flags, hstd⟩ := h.std_desc 2 (by decide)
  exact s.descs.live_lt (Store.get_some.mp hstd).1

theorem insertFile_entry {t : GlobalFileTable} {i : Fin MAX_GLOBAL_TABLE_SIZE} (file : ℕ)
    (hi : firstFree t.files = some i) :
    insertFile file t = ⟨update t.files i (some file), t.numOpenFiles+1⟩ := by
  simp [insertFile, hi]

theorem opened_heaps {vn : ℕ} {i : Fin MAX_GLOBAL_TABLE_SIZE} (h : Heaps s)
    (hi : firstFree s.table.files = some i)
    (hmiss : ∀ j file, s.table.files j = some file → fileNode s file ≠ some vn) :
    Heaps (opened vn s) := by
  have hfree := (firstFree_eq_some.mp hi).1
  have h3 := files_next_ge h
  have hold : ∀ {j file}, s.table.files j = some file → file ≠ s.files.next := by
    intro j file hj
    have := s.files.live_lt (h.table_live j file hj)
    omega
  have hent : ∀ j file, (opened vn s).table.files j = some file →
      (j = i ∧ file = s.files.next) ∨ s.table.files j = some file := by
    intro j file hj
    simp only [opened, insertFile_entry _ hi] at hj
    by_cases hji : j = i
    · subst hji
      rw [update_self] at hj
      exact .inl ⟨rfl, (Option.some.inj hj).symm⟩
    · rw [update_of_ne hji] at hj
      exact .inr hj
  constructor
  · intro j hj
    have hne : j ≠ s.files.next := by omega
    simpa only [opened, Store.alloc_get hne] using h.std_file j hj
  · exact h.std_desc
  · intro j f hj hcell
    by_cases hn : j = s.files.next
    · subst hn
      simp only [opened, Store.alloc_cell_self, Option.some.injEq] at hcell
      subst hcell
      exact ⟨rfl, vn, rfl⟩
    · simp only [opened, Store.alloc_cell hn] at hcell
      exact h.user_file j f hj hcell
  · intro d fd hd hcell
    obtain ⟨hs, hf, f, hfile⟩ := h.user_desc d fd hd hcell
    have hne : fd.file ≠ s.files.next := by
      have := s.files.cell_lt hfile
      omega
    exact ⟨hs, hf, f, by simpa only [opened, Store.alloc_cell hne] using hfile⟩
  · intro j file hj
    rcases hent j file hj with ⟨-, rfl⟩ | hj'
    · simp [opened, Store.alloc]
    · simpa [opened, Store.alloc, update_of_ne (hold hj')] using h.table_live j file hj'
  · intro j file hfile
    rw [← h.table_std j file hfile]
    simp only [opened, insertFile_entry _ hi]
    by_cases hji : j = i
    · subst hji
      have hne : s.files.next ≠ file := by omega
      simp [hfree, hne]
    · rw [update_of_ne hji]
  · intro j k f g w hj hk hf hg
    have hnew : ∀ {j file}, s.table.files j = some file →
        fileNode (opened vn s) file = some w → w ≠ vn := by
      intro j file hj hw hvw
      rw [opened_fileNode vn (hold hj), hvw] at hw
      exact hmiss j file hj hw
    have hself : ∀ {file}, file = s.files.next →
        fileNode (opened vn s) file = some w → w = vn := by
      intro file hfile hw
      rw [hfile, opened_fileNode_self] at hw
      exact (Option.some.inj hw).symm
    rcases hent j f hj with ⟨rfl, hfn⟩ | hj' <;> rcases hent k g hk with ⟨rfl, hgn⟩ | hk'
    · rfl
    · exact absurd (hself hfn hf) (hnew hk' hg)
    · exact absurd (hself hgn hg) (hnew hj' hf)
    · rw [opened_fileNode vn (hold hj')] at hf
      rw [opened_fileNode vn (hold hk')] at hg
      exact h.table_node j k f g w hj' hk' hf hg
  · intro g hg hl
    simp only [opened, insertFile_entry _ hi]
    by_cases hn : g = s.files.next
    · exact ⟨i, by simp [hn]⟩
    · obtain ⟨j, hj⟩ := h.live_table g hg (by simpa [opened, Store.alloc, update_of_ne hn] using hl)
      have hji : j ≠ i := by
        intro he
        rw [he, hfree] at hj
        cases hj
      exact ⟨j, by rwa [update_of_ne hji]⟩
  · have hput := weight_put (w := fun _ => 1) hfree s.files.next
    have hn := h.table_count
    simp only [opened, insertFile_entry _ hi, occupied] at *
    omega

theorem opened_held {vn g : ℕ} {i : Fin MAX_GLOBAL_TABLE_SIZE}
    (hi : firstFree s.table.files = some i) (hg : Held s g) : Held (opened vn s) g := by
  obtain ⟨h3, hl, j, hj⟩ := hg
  have hne : g ≠ s.files.next := by
    have := s.files.live_lt hl
    omega
  have hji : j ≠ i := by
    intro he
    rw [he, (firstFree_eq_some.mp hi).1] at hj
    cases hj
  refine ⟨h3, by simpa [opened, Store.alloc, update_of_ne hne] using hl, j, ?_⟩
  simpa [opened, insertFile_entry _ hi, update_of_ne hji] using hj

theorem opened_held_self {vn : ℕ} {i : Fin MAX_GLOBAL_TABLE_SIZE} (h : Heaps s)
    (hi : firstFree s.table.files = some i) : Held (opened vn s) s.files.next := by
  refine ⟨files_next_ge h, by simp [opened, Store.alloc], i, ?_⟩
  simp [opened, insertFile_entry _ hi]

/-- What a descriptor leads to is unchanged by an allocation of files. -/
theorem opened_descNode {vn d : ℕ} (h : Heaps s) : descNode (opened vn s) d = descNode s d := by
  cases hc : s.descs.cell d with
  | none => simp [descNode, opened, hc]
  | some fd =>
    have hlt : fd.file ≠ s.files.next := by
      by_cases hd : d < 3
      · obtain ⟨flags, hget⟩ := h.std_desc d hd
        rw [(Store.get_some.mp hget).2] at hc
        cases hc
        have := files_next_ge h
        dsimp only
        omega
      · obtain ⟨-, -, f, hf⟩ := h.user_desc d fd (by omega) hc
        have := s.files.cell_lt hf
        omega
    have hc' : (opened vn s).descs.cell d = some fd := hc
    simp only [descNode, hc, hc', Option.bind_some, opened_fileNode vn hlt]

theorem opened_owned {vn : ℕ} {i : Fin MAX_GLOBAL_TABLE_SIZE} (h : Owned n hand held s)
    (hi : firstFree s.table.files = some i)
    (hmiss : ∀ j file, s.table.files j = some file → fileNode s file ≠ some vn) :
    Owned n hand held (opened vn s) := by
  refine ⟨opened_heaps h.heap hi hmiss, ?_, fun f hf => opened_held hi (h.pinned f hf), ?_⟩
  · intro p hp j d hd
    rcases h.slots p hp j d hd with hlt | ⟨h3, hl, fd, hfd, hheld⟩
    · exact .inl hlt
    · exact .inr ⟨h3, hl, fd, hfd, opened_held hi hheld⟩
  · intro w
    have hsum : tableRefs (opened vn s) n w = tableRefs s n w := by
      apply total_congr
      intro p _
      apply weight_congr
      intro j d _
      rw [opened_descNode h.heap]
    rw [hsum]
    exact h.counts w

theorem globalTableOpenFile_locals {vn : ℕ} {mem : Bool} {r : Except Errno ℕ} {s' : State}
    (h : globalTableOpenFile vn mem s = .ok (r, s')) : s'.locals = s.locals := by
  unfold globalTableOpenFile at h
  split at h
  · cases h
    rfl
  · split at h
    · cases h
    · cases h
      rfl
    · split at h <;> cases h <;> rfl

/-- When the critical section of `global_table_open_file` succeeds it returns
a file of the vnode that is in the global table. -/
theorem globalTableOpenFile_owned {vn : ℕ} {mem : Bool} (h : Owned n hand held s)
    (hfull : s.table.numOpenFiles ≠ MAX_GLOBAL_TABLE_SIZE)
    (hmem : mem = true ∨ ∃ file, findFile vn s (List.finRange _) = .ok (some file)) :
    ∃ file s', globalTableOpenFile vn mem s = .ok (.ok file, s') ∧ Owned n hand held s' ∧
      Held s' file ∧ fileNode s' file = some vn ∧ (s' = s ∨ s' = opened vn s) := by
  rcases findFile_spec h.heap vn (List.finRange _) with ⟨file, hfind, hj, hv⟩ | ⟨hfind, hmiss⟩
  · refine ⟨file, s, ?_, h, table_held h.heap hj hv, hv, .inl rfl⟩
    rw [globalTableOpenFile, if_neg hfull, hfind]
  · have hm : mem = true := by
      rcases hmem with hm | ⟨file, hfile⟩
      · exact hm
      · rw [hfind] at hfile
        cases hfile
    have hocc : ¬ ∀ i, s.table.files i ≠ none := by
      intro hall
      apply hfull
      rw [h.heap.table_count, occupied_full.mpr hall]
    cases hi : firstFree s.table.files with
    | none => exact absurd (firstFree_eq_none.mp hi) hocc
    | some i =>
      refine ⟨s.files.next, opened vn s, ?_,
        opened_owned h hi (fun j file hj => hmiss j (List.mem_finRange j) file hj),
        opened_held_self h.heap hi, opened_fileNode_self vn, .inr rfl⟩
      rw [globalTableOpenFile, if_neg hfull, hfind, hm]
      rfl

/-- A fresh descriptor of `file`, not yet in any slot. -/
def described (file flags : ℕ) (s : State) : State :=
  { s with descs := s.descs.alloc ⟨file, flags &&& O_ACCMODE, 0, -1⟩ }

theorem described_descNode {file flags d : ℕ} (hd : d ≠ s.descs.next) :
    descNode (described file flags s) d = descNode s d := by
  have hfn : ∀ f, fileNode (described file flags s) f = fileNode s f := fun _ => rfl
  simp [descNode, hfn]
  simp [described, Store.alloc_cell hd]

theorem described_descNode_self (file flags : ℕ) :
    descNode (described file flags s) s.descs.next = fileNode s file := by
  have hfn : ∀ f, fileNode (described file flags s) f = fileNode s f := fun _ => rfl
  simp [descNode, hfn]
  simp [described]

theorem valid_lt (h : Heaps s) {d : ℕ} (hd : ValidDesc s d) : d ≠ s.descs.next := by
  have h3 := descs_next_ge h
  rcases hd with hlt | ⟨-, hl, -⟩
  · omega
  · have := s.descs.live_lt hl
    omega

theorem described_valid {file flags d : ℕ} (h : Heaps s) (hd : ValidDesc s d) :
    ValidDesc (described file flags s) d := by
  have hne := valid_lt h hd
  rcases hd with hlt | ⟨h3, hl, fd, hfd, hheld⟩
  · exact .inl hlt
  · refine .inr ⟨h3, by simpa [described, Store.alloc, update_of_ne hne] using hl, fd, ?_, hheld⟩
    simpa [described, Store.alloc_cell hne] using hfd

theorem described_valid_self {file flags : ℕ} (h : Heaps s) (hf : Held s file) :
    ValidDesc (described file flags s) s.descs.next := by
  refine .inr ⟨descs_next_ge h, by simp [described, Store.alloc],
    ⟨file, flags &&& O_ACCMODE, 0, -1⟩, ?_, hf⟩
  simp only [described, Store.alloc_cell_self]

theorem described_owned {file : ℕ} (flags : ℕ) (h : Owned n hand held s) (hf : Held s file) :
    Owned n hand held (described file flags s) := by
  obtain ⟨h3, h4, h5, h6, h7, h8, h9, h10, h11⟩ := h.heap
  have hge := descs_next_ge h.heap
  obtain ⟨f, hcell⟩ := s.files.live_cell file hf.2.1
  refine ⟨⟨h3, ?_, h5, ?_, h7, h8, h9, h10, h11⟩, ?_, h.pinned, ?_⟩
  · intro i hi
    have hne : i ≠ s.descs.next := by omega
    simpa only [described, Store.alloc_get hne] using h4 i hi
  · intro d fd hd hfd
    by_cases hn : d = s.descs.next
    · subst hn
      simp only [described, Store.alloc_cell_self, Option.some.injEq] at hfd
      subst hfd
      exact ⟨rfl, hf.1, f, hcell⟩
    · simp only [described, Store.alloc_cell hn] at hfd
      exact h6 d fd hd hfd
  · intro p hp i d hd
    exact described_valid h.heap (h.slots p hp i d hd)
  · intro w
    have hsum : tableRefs (described file flags s) n w = tableRefs s n w := by
      apply total_congr
      intro p hp
      apply weight_congr
      intro i d hd
      rw [described_descNode (valid_lt h.heap (h.slots p hp i d hd))]
    rw [hsum]
    exact h.counts w

theorem addFile_full {p file flags : ℕ} {mem : Bool}
    (hfull : (s.locals p).numOpenFiles = MAX_LOCAL_TABLE_SIZE) :
    localTableAddFile p file flags mem s = (.error .emfile, s) := by
  rw [localTableAddFile, if_pos hfull]

theorem addFile_noMem {p file flags : ℕ} (hfull : (s.locals p).numOpenFiles ≠ MAX_LOCAL_TABLE_SIZE) :
    localTableAddFile p file flags false s = (.error .enospc, s) := by
  rw [localTableAddFile, if_neg hfull]
  rfl

theorem addFile_noSlot {p file flags : ℕ} (hfull : (s.locals p).numOpenFiles ≠ MAX_LOCAL_TABLE_SIZE)
    (hi : firstFree (s.locals p).files = none) :
    localTableAddFile p file flags true s = (.error .eio, described file flags s) := by
  simp only [localTableAddFile, hfull, if_false, Bool.not_true, Bool.false_eq_true, fileDescCreate, hi]
  rfl

theorem addFile_slot {p file flags : ℕ} {i : Handle}
    (hfull : (s.locals p).numOpenFiles ≠ MAX_LOCAL_TABLE_SIZE)
    (hi : firstFree (s.locals p).files = some i) :
    localTableAddFile p file flags true s =
      (.ok i, (described file flags s).setSlot p i (some s.descs.next)) := by
  simp only [localTableAddFile, hfull, if_false, Bool.not_true, Bool.false_eq_true, fileDescCreate, hi]
  rfl

theorem localTableAddFile_frame {p file flags : ℕ} {mem : Bool} {r : Except Errno Handle} {s' : State}
    (h : localTableAddFile p file flags mem s = (r, s')) :
    s'.refcount = s.refcount ∧ s'.files = s.files ∧ s'.table = s.table := by
  by_cases hfull : (s.locals p).numOpenFiles = MAX_LOCAL_TABLE_SIZE
  · rw [addFile_full hfull] at h
    cases h
    exact ⟨rfl, rfl, rfl⟩
  · cases mem with
    | false =>
      rw [addFile_noMem hfull] at h
      cases h
      exact ⟨rfl, rfl, rfl⟩
    | true =>
      cases hi : firstFree (s.locals p).files with
      | none =>
        rw [addFile_noSlot hfull hi] at h
        cases h
        exact ⟨rfl, rfl, rfl⟩
      | some i =>
        rw [addFile_slot hfull hi] at h
        cases h
        exact ⟨rfl, rfl, rfl⟩

/-- `local_table_add_file` either leaves all references where they are or
moves the one in the hand into the slot it returns. -/
theorem localTableAddFile_owned {p file vn : ℕ} (flags : ℕ) (mem : Bool)
    (h : Owned n (plus hand (some vn)) held s) (hp : p < n) (hf : Held s file)
    (hv : fileNode s file = some vn) :
    (∃ i d s', localTableAddFile p file flags mem s = (.ok i, s') ∧ Owned n hand held s' ∧
      s' = (described file flags s).setSlot p i (some d)) ∨
    ∃ e s', localTableAddFile p file flags mem s = (.error e, s') ∧
      Owned n (plus hand (some vn)) held s' ∧ (s' = s ∨ s' = described file flags s) := by
  by_cases hfull : (s.locals p).numOpenFiles = MAX_LOCAL_TABLE_SIZE
  · exact .inr ⟨.emfile, s, addFile_full hfull, h, .inl rfl⟩
  · cases mem with
    | false => exact .inr ⟨.enospc, s, addFile_noMem hfull, h, .inl rfl⟩
    | true =>
      have hd := described_owned flags h hf
      cases hi : firstFree (s.locals p).files with
      | none => exact .inr ⟨.eio, _, addFile_noSlot hfull hi, hd, .inr rfl⟩
      | some i =>
        refine .inl ⟨i, s.descs.next, _, addFile_slot hfull hi, ?_, rfl⟩
        have hfree : (described file flags s).slot p i = none := (firstFree_eq_some.mp hi).1
        have hhand : Owned n (plus hand (descNode (described file flags s) s.descs.next)) held
            (described file flags s) := by
          rwa [described_descNode_self, hv]
        exact hhand.install hp hfree (described_valid_self h.heap hf)

end OS161.FileOpening
