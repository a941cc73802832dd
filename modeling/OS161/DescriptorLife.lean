import OS161.GlobalTable

/-!
# The life of a descriptor

A descriptor has no count of its own. Clearing a slot frees it when the count
of its vnode was one, and otherwise does not, even if that slot was the
descriptor's last. A descriptor is thus freed with its last slot exactly when
the vnode then has no other reference.
-/

set_option autoImplicit false

namespace OS161.DescriptorLife

open Function OS161.Slots OS161.Vfs OS161.FileTable OS161.FileOwnership OS161.FileClosing
open OS161.FileOpening OS161.FileClearing OS161.FileRuns OS161.FileAccounting OS161.FileActions
open OS161.FileSafety OS161.GlobalTable

/-- Every allocated descriptor, the three console ones apart, is in a slot. -/
def Used (n : ℕ) (s : State) : Prop :=
  ∀ d, 3 ≤ d → s.descs.live d = true → ∃ p < n, ∃ i, s.slot p i = some d

theorem Used.mono {n n' : ℕ} {s s' : State} (h : Used n s) (hn : n ≤ n')
    (hl : ∀ d, s'.descs.live d = true → s.descs.live d = true)
    (hs : ∀ p < n, ∀ i d, s.slot p i = some d → s'.slot p i = some d) : Used n' s' := by
  intro d h3 hd
  obtain ⟨p, hp, i, hi⟩ := h d h3 (hl d hd)
  exact ⟨p, by omega, i, hs p hp i d hi⟩

/-- Slot `i` of process `p` is the only one that holds the descriptor. -/
def onlySlot (n : ℕ) (s : State) (p : ℕ) (i : Handle) (d : ℕ) : Prop :=
  ∀ q < n, ∀ j, s.slot q j = some d → q = p ∧ j = i

instance decidableOnlySlot (n : ℕ) (s : State) (p : ℕ) (i : Handle) (d : ℕ) :
    Decidable (onlySlot n s p i d) :=
  decidable_of_iff (∀ q : Fin n, ∀ j, s.slot q j = some d → q = p ∧ j = i)
    ⟨fun h q hq => h ⟨q, hq⟩, fun h q => h q q.isLt⟩

theorem Used.clear {n p d : ℕ} {i : Handle} {s s' : State} (h : Used n s) (hd : s.slot p i = some d)
    (hc : Cleared p i d s s') (hlast : 3 ≤ d → onlySlot n s p i d → freed s d) : Used n s' := by
  have hkeep : ∀ q < n, ∀ j e, s.slot q j = some e → ¬ (q = p ∧ j = i) →
      ∃ q < n, ∃ j, s'.slot q j = some e := by
    intro q hq j e he hne
    exact ⟨q, hq, j, by rw [hc.slot, if_neg hne, he]⟩
  intro e h3 he
  obtain ⟨hlive, hnot⟩ := (hc.live e).mp he
  obtain ⟨q, hq, j, hj⟩ := h e h3 hlive
  by_cases hqj : q = p ∧ j = i
  · have hed : e = d := by
      rw [hqj.1, hqj.2, hd] at hj
      exact (Option.some.inj hj).symm
    have hmore : ¬ onlySlot n s p i d := by
      intro honly
      exact hnot ⟨hed, hlast (hed ▸ h3) honly⟩
    simp only [onlySlot, not_forall] at hmore
    obtain ⟨r, hr, k, hk, hne⟩ := hmore
    exact hkeep r hr k e (hed ▸ hk) hne
  · exact hkeep q hq j e hj hqj

/-- How many of the listed slots hold the descriptor. -/
def copies (s : State) (p : ℕ) (is : List Handle) (d : ℕ) : ℕ :=
  is.countP (fun j => decide (s.slot p j = some d))

theorem copies_cons_self {s : State} {p d : ℕ} {i : Handle} {is : List Handle}
    (hd : s.slot p i = some d) : copies s p (i::is) d = copies s p is d + 1 := by
  simp [copies, hd]

theorem copies_cons_ne {s : State} {p d : ℕ} {i : Handle} {is : List Handle}
    (hd : s.slot p i ≠ some d) : copies s p (i::is) d = copies s p is d := by
  simp [copies, hd]

theorem copies_cleared {s s' : State} {p d e : ℕ} {i : Handle} {is : List Handle}
    (hc : Cleared p i d s s') (hi : i ∉ is) : copies s' p is e = copies s p is e := by
  apply List.countP_congr
  intro j hj
  have hne : ¬ (p = p ∧ j = i) := fun hx => hi (hx.2 ▸ hj)
  rw [hc.slot, if_neg hne]

theorem copies_le {s : State} {p d vn : ℕ} (hv : descNode s d = some vn) (is : List Handle) :
    copies s p is d ≤ listRefs s p is vn := by
  induction is with
  | nil => exact le_refl _
  | cons i is ih =>
    by_cases hi : s.slot p i = some d
    · rw [copies_cons_self hi, listRefs_cons hi]
      have hone : pointsTo (descNode s d) vn = 1 := by simp [pointsTo, hv]
      omega
    · rw [copies_cons_ne hi]
      have hle : listRefs s p is vn ≤ listRefs s p (i::is) vn := by
        simp [listRefs]
      omega

theorem copies_zero {s : State} {p d : ℕ} {is : List Handle}
    (h : ∀ j ∈ is, s.slot p j ≠ some d) : copies s p is d = 0 := by
  simp only [copies, List.countP_eq_zero, decide_eq_true_eq]
  exact h

theorem listRefs_le {s : State} {p : ℕ} {is : List Handle} (hn : is.Nodup) (w : ℕ) :
    listRefs s p is w ≤ slotRefs s w p := by
  have hsum : ∀ f : Handle → ℕ, (is.map f).sum ≤ ∑ i, f i := by
    intro f
    rw [← List.sum_toFinset f hn]
    exact Finset.sum_le_sum_of_subset (Finset.subset_univ _)
  exact hsum _

/-- What the loop over a process's slots keeps: a descriptor whose slots are
all still to be cleared owns every reference to its vnode. -/
structure Leaving (n p : ℕ) (is : List Handle) (s : State) : Prop where
  nodup : is.Nodup
  used : Used n s
  owns : ∀ d vn, (∃ i ∈ is, s.slot p i = some d) →
    (∀ q < n, ∀ j, s.slot q j = some d → q = p ∧ j ∈ is) →
    descNode s d = some vn → s.refcount vn = copies s p is d

theorem leaving_skip {n p : ℕ} {i : Handle} {is : List Handle} {s : State}
    (hi : s.slot p i = none) (h : Leaving n p (i::is) s) : Leaving n p is s := by
  obtain ⟨hn, hu, ho⟩ := h
  refine ⟨(List.nodup_cons.mp hn).2, hu, ?_⟩
  intro d vn hex hall hv
  obtain ⟨j, hj, hd⟩ := hex
  have hcount := ho d vn ⟨j, List.mem_cons_of_mem i hj, hd⟩
    (fun q hq k hk => ⟨(hall q hq k hk).1, List.mem_cons_of_mem i (hall q hq k hk).2⟩) hv
  rwa [copies_cons_ne (by simp [hi])] at hcount

theorem leaving_clear {n p d : ℕ} {hand : ℕ → ℕ} {held : ℕ → Prop} {i : Handle} {is : List Handle}
    {s s' : State} (ho : Owned n hand held s) (hp : p < n) (hd : s.slot p i = some d)
    (hc : Cleared p i d s s') (h : Leaving n p (i::is) s) : Leaving n p is s' := by
  obtain ⟨hn, hu, hown⟩ := h
  obtain ⟨hi, hnodup⟩ := List.nodup_cons.mp hn
  have hslot : ∀ j ∈ is, s'.slot p j = s.slot p j := by
    intro j hj
    have hne : ¬ (p = p ∧ j = i) := fun hx => hi (hx.2 ▸ hj)
    rw [hc.slot, if_neg hne]
  refine ⟨hnodup, ?_, ?_⟩
  · apply hu.clear hd hc
    intro h3 honly
    obtain ⟨fd, vn, -, -, -, hv⟩ := validDesc_user (ho.slots p hp i d hd) h3 ho.heap
    have hcount := hown d vn ⟨i, List.mem_cons_self, hd⟩
      (fun q hq j hj => ⟨(honly q hq j hj).1, (honly q hq j hj).2 ▸ List.mem_cons_self⟩) hv
    have hzero : copies s p is d = 0 := by
      apply copies_zero
      intro j hj hx
      exact hi ((honly p hp j hx).2 ▸ hj)
    rw [copies_cons_self hd, hzero] at hcount
    exact ⟨vn, hv, hcount⟩
  · intro e vn hex hall hv
    obtain ⟨j, hj, he⟩ := hex
    rw [hc.descNode] at hv
    rw [hslot j hj] at he
    have hall' : ∀ q < n, ∀ k, s.slot q k = some e → q = p ∧ k ∈ i::is := by
      intro q hq k hk
      by_cases hqk : q = p ∧ k = i
      · exact ⟨hqk.1, hqk.2 ▸ List.mem_cons_self⟩
      · have hk' : s'.slot q k = some e := by rw [hc.slot, if_neg hqk, hk]
        exact ⟨(hall q hq k hk').1, List.mem_cons_of_mem i (hall q hq k hk').2⟩
    have hcount := hown e vn ⟨j, List.mem_cons_of_mem i hj, he⟩ hall' hv
    have hgive := hc.given.counts vn
    rw [copies_cleared hc hi]
    by_cases hed : e = d
    · subst hed
      have hone : pointsTo (descNode s e) vn = 1 := by simp [pointsTo, hv]
      rw [copies_cons_self hd] at hcount
      omega
    · -- another descriptor of the same vnode would hold a reference too many
      have hother : descNode s d ≠ some vn := by
        intro hdv
        have h1 := copies_le (p := p) hv is
        have h2 : listRefs s p (i::is) vn = _ := listRefs_cons hd vn
        have h3 := listRefs_le (s := s) (p := p) hn vn
        have h4 : slotRefs s vn p ≤ tableRefs s n vn := le_total (slotRefs s vn) hp
        have h5 := ho.counts vn
        have hone : pointsTo (descNode s d) vn = 1 := by simp [pointsTo, hdv]
        rw [copies_cons_ne (by rw [hd]; exact fun hx => hed (Option.some.inj hx).symm)] at hcount
        omega
      have hzero : pointsTo (descNode s d) vn = 0 := by simp [pointsTo, hother]
      rw [copies_cons_ne (by rw [hd]; exact fun hx => hed (Option.some.inj hx).symm)] at hcount
      omega

/-- A last slot is cleared only when it holds the vnode's last reference, and
a descriptor is allocated only when there is a slot for it. -/
def Freeing : Action → System → Prop
  | .close p fd, s => ∀ i : Handle, (i : ℤ) = fd → ∀ d ∈ s.ft.slot p i, ∀ vn ∈ descNode s.ft d,
      onlySlot s.nprocs s.ft p i d → s.ft.refcount vn = 1
  | .dup2 p oldfd newfd, s => ∀ i j : Handle, (i : ℤ) = oldfd → (j : ℤ) = newfd → i ≠ j →
      s.ft.slot p i ≠ none → ∀ d ∈ s.ft.slot p j, ∀ vn ∈ descNode s.ft d,
      onlySlot s.nprocs s.ft p j d → s.ft.refcount vn = 1
  | .exit p, s => ∀ i, ∀ d ∈ s.ft.slot p i, ∀ vn ∈ descNode s.ft d,
      (∀ q : Fin s.nprocs, ∀ j, s.ft.slot q j = some d → q = p) →
      s.ft.refcount vn = copies s.ft p (List.finRange _) d
  | .openLocal p mem, s => (s.ft.locals p).numOpenFiles ≠ MAX_LOCAL_TABLE_SIZE → mem = true →
      ∃ i, s.ft.slot p i = none
  | _, _ => True

variable {s s' : System}

theorem runprogram_used {cwd : Option ℕ} (h : Used s.nprocs s.ft)
    (hs : runprogram cwd s = .ok s') : Used s'.nprocs s'.ft := by
  unfold runprogram at hs
  cases hc : increfAll cwd s.ft.refcount with
  | error e => simp [hc] at hs
  | ok c =>
    simp only [hc, Except.ok.injEq] at hs
    subst hs
    refine h.mono (Nat.le_succ _) (fun d hd => hd) ?_
    intro p hp i d hd
    show (hosted c s.nprocs s.ft).slot p i = some d
    rw [hosted_slot_ne (by omega)]
    exact hd

theorem openLocal_used {p : ℕ} {mem : Bool} (h : Used s.nprocs s.ft) (ha : Accounted s)
    (hf : Freeing (.openLocal p mem) s) (hs : openLocal p mem s = .ok s') : Used s'.nprocs s'.ft := by
  unfold openLocal at hs
  split at hs
  · next vn file flags hop =>
    have hp : p < s.nprocs := by
      apply ha.lt_of_ne
      intro he
      simp [he, Process.none] at hop
    by_cases hfull : (s.ft.locals p).numOpenFiles = MAX_LOCAL_TABLE_SIZE
    · rw [addFile_full hfull] at hs
      cases hs
      exact h
    · cases mem with
      | false =>
        rw [addFile_noMem hfull] at hs
        cases hs
        exact h
      | true =>
        cases hi : firstFree (s.ft.locals p).files with
        | none =>
          obtain ⟨i, hx⟩ := hf hfull rfl
          exact absurd hx (firstFree_eq_none.mp hi i)
        | some i =>
          have hnone : s.ft.slot p i = none := (firstFree_eq_some.mp hi).1
          rw [addFile_slot hfull hi] at hs
          cases hs
          show Used s.nprocs ((described file flags s.ft).setSlot p i (some s.ft.descs.next))
          intro d h3 hd
          by_cases hn : d = s.ft.descs.next
          · exact ⟨p, hp, i, by rw [setSlot_slot, if_pos ⟨rfl, rfl⟩, hn]⟩
          · have hlive : s.ft.descs.live d = true := by
              simpa [described, Store.alloc, update_of_ne hn] using hd
            obtain ⟨q, hq, j, hj⟩ := h d h3 hlive
            have hne : ¬ (q = p ∧ j = i) := by
              rintro ⟨rfl, rfl⟩
              rw [hnone] at hj
              cases hj
            exact ⟨q, hq, j, by rw [setSlot_slot, if_neg hne]; exact hj⟩
  · cases hs

theorem fileDestroy_descs {file : ℕ} {b : Bool} {t t' : State} (h : fileDestroy file t = .ok (b, t')) :
    t'.descs = t.descs := by
  unfold fileDestroy at h
  split at h
  · cases h
  · split at h
    · cases h
      rfl
    · split at h
      · cases h
      · split at h
        · cases h
        · split at h <;> cases h <;> rfl

theorem globalTableOpenFile_descs {vn : ℕ} {mem : Bool} {r : Except Errno ℕ} {t t' : State}
    (h : globalTableOpenFile vn mem t = .ok (r, t')) : t'.descs = t.descs := by
  unfold globalTableOpenFile at h
  split at h
  · cases h
    rfl
  · split at h
    · cases h
    · cases h
      rfl
    · split at h <;> cases h <;> rfl

/-- Descriptors and slots stay as they are. -/
theorem Used.same {n : ℕ} {t t' : State} (h : Used n t) (hd : t'.descs = t.descs)
    (hl : t'.locals = t.locals) : Used n t' := by
  apply h.mono (le_refl n)
  · intro d hlive
    rwa [hd] at hlive
  · intro p _ i d hslot
    simpa [State.slot, hl] using hslot

theorem openGlobal_used {p : ℕ} {mem : Bool} (h : Used s.nprocs s.ft)
    (hs : openGlobal p mem s = .ok s') : Used s'.nprocs s'.ft := by
  unfold openGlobal at hs
  split at hs
  · next vn flags hop =>
    cases hopen : globalTableOpenFile vn mem s.ft with
    | error e => simp [hopen] at hs
    | ok ru =>
      obtain ⟨r, ft⟩ := ru
      have hused := h.same (globalTableOpenFile_descs hopen) (globalTableOpenFile_locals hopen)
      rw [hopen] at hs
      cases r <;> cases hs <;> exact hused
  · cases hs

theorem openUndo_used {p : ℕ} (h : Used s.nprocs s.ft) (hs : openUndo p s = .ok s') :
    Used s'.nprocs s'.ft := by
  unfold openUndo at hs
  split at hs
  · next vn file hop =>
    cases hd : fileDestroy file s.ft with
    | error e => simp [hd] at hs
    | ok ru =>
      obtain ⟨b, ft⟩ := ru
      have hused := h.same (fileDestroy_descs hd) (fileDestroy_frame hd).locals
      rw [hd] at hs
      cases hs
      exact hused
  · cases hs

theorem fork_used {p : ℕ} (h : Used s.nprocs s.ft) (ha : Accounted s) (hr : s.ready p = true)
    (hlow : lowStd s.ft p) (hs : fork p s = .ok s') : Used s'.nprocs s'.ft := by
  have hp := ha.lt_of_ready hr
  unfold fork at hs
  cases hcwd : (s.procs p).cwd with
  | none => simp [hcwd] at hs
  | some vn =>
    cases hc : vnodeIncref vn s.ft.refcount with
    | error e => simp [hcwd, hc] at hs
    | ok c =>
      have hne : p ≠ s.nprocs := by omega
      have ho := hosted_owned ha (incref_counts hc)
      have hlow' : lowStd (hosted c s.nprocs s.ft) p := by
        intro i hi d hd
        rw [hosted_slot_ne hne] at hd
        exact hlow i hi d hd
      obtain ⟨ft, hcopy, -, hsame, hother, -⟩ := localTableCopy_owned ho hp hlow'
      simp only [hosted] at hcopy
      simp only [hcwd, hc, hcopy, Except.ok.injEq] at hs
      subst hs
      refine h.mono (Nat.le_succ _) ?_ ?_
      · intro d hd
        rwa [hsame.descs] at hd
      · intro q hq i d hd
        rw [hother q (by omega), hosted_slot_ne (by omega)]
        exact hd

end OS161.DescriptorLife
