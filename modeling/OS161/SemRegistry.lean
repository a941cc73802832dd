import OS161.SemDirectory

/-!
# The table of semaphores

A semaphore is kept by its directory entry, by its vnode, or by the thread that
is making or removing it. It leaves the table only in the hands of such a thread,
or together with its vnode, and is destroyed after that.
-/

set_option autoImplicit false

namespace OS161.SemDirectory

open Function OS161.Vfs

structure Flags where
  live : Bool
  hasvnode : Bool
  linked : Bool

def Sem.flags {T : Type} (m : Sem T) : Flags := ⟨m.live, m.hasvnode, m.linked⟩

section Has

variable {ι : Type} {f : ι → Option ℕ} {i : ι} {o p : ℕ}

def Has (f : ι → Option ℕ) (o : ℕ) : Prop := ∃ i, f i = some o

theorem has_of (h : f i = some o) : Has f o := ⟨i, h⟩

variable [DecidableEq ι]

theorem has_put (hi : f i = none) : Has (update f i (some p)) o ↔ o = p ∨ Has f o := by
  constructor
  · rintro ⟨j, hj⟩
    by_cases hji : j = i
    · subst hji
      rw [update_self] at hj
      exact .inl (Option.some.inj hj).symm
    · exact .inr ⟨j, by rwa [update_of_ne hji] at hj⟩
  · rintro (rfl | ⟨j, hj⟩)
    · exact ⟨i, update_self ..⟩
    · refine ⟨j, ?_⟩
      rwa [update_of_ne]
      rintro rfl
      rw [hi] at hj
      cases hj

theorem has_take (hi : f i = some p) (hone : ∀ j, f j = some p → j = i) :
    Has (update f i none) o ↔ o ≠ p ∧ Has f o := by
  constructor
  · rintro ⟨j, hj⟩
    by_cases hji : j = i
    · subst hji
      rw [update_self] at hj
      cases hj
    · rw [update_of_ne hji] at hj
      refine ⟨?_, j, hj⟩
      rintro rfl
      exact hji (hone j hj)
  · rintro ⟨hne, j, hj⟩
    refine ⟨j, ?_⟩
    rwa [update_of_ne]
    rintro rfl
    rw [hi] at hj
    exact hne (Option.some.inj hj).symm

end Has

variable {T : Type}

/-- `owns` are the semaphores that threads have made or unlinked, and that
nothing else keeps; the `detached` ones are not in the table. -/
structure Registry (sems : ℕ → Option ℕ) (num : ℕ) (flags : ℕ → Flags) (next : ℕ)
    (owns detached : T → Option ℕ) : Prop where
  size : num ≤ SEMFS_ROOTDIR
  bound : ∀ k o, sems k = some o → k < num
  inj : ∀ k j o, sems k = some o → sems j = some o → k = j
  live : ∀ k o, sems k = some o → (flags o).live = true
  placed : ∀ o, (flags o).live = true → Has sems o ∨ Has detached o
  apart : ∀ t o, detached t = some o → owns t = some o ∧ ∀ k, sems k ≠ some o
  owned : ∀ t o, owns t = some o →
    (flags o).live = true ∧ (flags o).linked = false ∧ (flags o).hasvnode = false
  needed : ∀ o, (flags o).live = true →
    (flags o).linked = true ∨ (flags o).hasvnode = true ∨ Has owns o
  dead : ∀ o, (flags o).live = false → (flags o).linked = false ∧ (flags o).hasvnode = false
  fresh : ∀ o, (flags o).live = true → o < next

variable [DecidableEq T] {sems : ℕ → Option ℕ} {num : ℕ} {flags : ℕ → Flags} {next : ℕ}
  {owns detached : T → Option ℕ} {t : T} {k o : ℕ}

theorem Registry.alloc (h : Registry sems num flags next owns detached) (ht : owns t = none)
    (hd : detached t = none) :
    Registry sems num (update flags next ⟨true, false, false⟩) (next+1) (update owns t (some next))
      (update detached t (some next)) := by
  have hdead : (flags next).live = false := by
    by_contra hno
    exact absurd (h.fresh next (by simpa using hno)) (Nat.lt_irrefl _)
  obtain ⟨h1, h2, h3, h4, h5, h6, h7, h8, h9, h10⟩ := h
  constructor <;> grind [update_apply, has_put]

theorem Registry.insert (h : Registry sems num flags next owns detached) (hd : detached t = some o)
    (hk : sems k = none) {num' : ℕ} (hnum : num ≤ num') (hlt : k < num') (hsize : num' ≤ SEMFS_ROOTDIR)
    (hone : ∀ u, detached u = some o → u = t) :
    Registry (update sems k (some o)) num' flags next owns (update detached t none) := by
  obtain ⟨h1, h2, h3, h4, h5, h6, h7, h8, h9, h10⟩ := h
  constructor <;> grind [update_apply, has_put, has_take]

theorem Registry.withdraw (h : Registry sems num flags next owns detached) (ho : owns t = some o)
    (hk : sems k = some o) (hd : detached t = none) :
    Registry (update sems k none) num flags next owns (update detached t (some o)) := by
  have hinj : ∀ j, sems j = some o → j = k := fun j hj => h.inj j k o hj hk
  obtain ⟨h1, h2, h3, h4, h5, h6, h7, h8, h9, h10⟩ := h
  constructor <;> grind [update_apply, has_put, has_take]

theorem Registry.destroy (h : Registry sems num flags next owns detached) (hd : detached t = some o)
    (hone : ∀ u, owns u = some o → u = t) :
    Registry sems num (update flags o { flags o with live := false }) next (update owns t none)
      (update detached t none) := by
  have hone' : ∀ u, detached u = some o → u = t := fun u hu => hone u (h.apart u o hu).1
  obtain ⟨h1, h2, h3, h4, h5, h6, h7, h8, h9, h10⟩ := h
  constructor <;> grind [update_apply, has_put, has_take]

/-- The flags of a semaphore in the table change. If nothing keeps it then, it
falls to the thread. -/
theorem Registry.reflag (h : Registry sems num flags next owns detached) (hk : sems k = some o)
    (hone : ∀ u, owns u = some o → u = t) (ht : owns t = some o ∨ owns t = none) (hd : detached t = none)
    {v l : Bool} {x : Option ℕ} (hx : x = some o ∧ v = false ∧ l = false ∨ x = none ∧ (v = true ∨ l = true)) :
    Registry sems num (update flags o ⟨true, v, l⟩) next (update owns t x) detached := by
  have hput : ∀ p, owns t = none → (Has (update owns t (some o)) p ↔ p = o ∨ Has owns p) := fun p hn => has_put hn
  have htake : ∀ p, owns t = some o → (Has (update owns t none) p ↔ p ≠ o ∧ Has owns p) := fun p hs => has_take hs hone
  have hkeep : ∀ y, owns t = y → update owns t y = owns := by
    rintro y rfl
    exact update_eq_self t owns
  obtain ⟨h1, h2, h3, h4, h5, h6, h7, h8, h9, h10⟩ := h
  constructor <;> grind [update_apply]

omit [DecidableEq T] in
/-- An unlinked semaphore goes away with its vnode. -/
theorem Registry.discard (h : Registry sems num flags next owns detached) (hk : sems k = some o)
    (hv : (flags o).hasvnode = true) :
    Registry (update sems k none) num (update flags o ⟨false, false, false⟩) next owns detached := by
  have hinj : ∀ j, sems j = some o → j = k := fun j hj => h.inj j k o hj hk
  obtain ⟨h1, h2, h3, h4, h5, h6, h7, h8, h9, h10⟩ := h
  constructor <;> grind [update_apply, has_take]

/-- An entry names a semaphore in the table, unless a thread is working on it. -/
structure Directory (dents : ℕ → Option Direntry) (num : ℕ) (sems : ℕ → Option ℕ) (flags : ℕ → Flags)
    (touches : T → Option ℕ) : Prop where
  bound : ∀ i d, dents i = some d → i < num
  named : ∀ i d, dents i = some d → Has touches i ∨ ∃ o, sems d.semnum = some o ∧ (flags o).linked = true
  unique : ∀ i j d e, dents i = some d → dents j = some e → d.semnum = e.semnum → i = j

section Directory

variable {dents : ℕ → Option Direntry} {touches : T → Option ℕ} {i : ℕ} {d : Direntry}

theorem Directory.enter (h : Directory dents num sems flags touches) {num' : ℕ} (hnum : num ≤ num') (hlt : i < num') (hnone : ∀ u, touches u = none) (hk : sems d.semnum = some o)
    (hl : (flags o).linked = false) :
    Directory (update dents i (some d)) num' sems flags (update touches t (some i)) := by
  have hput : ∀ j, Has (update touches t (some i)) j ↔ j = i ∨ Has touches j := fun j => has_put (hnone t)
  have hhas : ∀ j, ¬Has touches j := fun j ⟨u, hu⟩ => by simp [hnone u] at hu
  obtain ⟨h1, h2, h3⟩ := h
  constructor <;> grind [update_apply]

theorem Directory.clear (h : Directory dents num sems flags touches) (ht : touches t = some i)
    (hone : ∀ u, touches u = some i → u = t) :
    Directory (update dents i none) num sems flags (update touches t none) := by
  have htake : ∀ j, Has (update touches t none) j ↔ j ≠ i ∧ Has touches j := fun j => has_take ht hone
  obtain ⟨h1, h2, h3⟩ := h
  constructor <;> grind [update_apply]

theorem Directory.link (h : Directory dents num sems flags touches) (ht : touches t = some i)
    (hone : ∀ u, touches u = some i → u = t) (hi : dents i = some d) (hk : sems d.semnum = some o) {a : Flags}
    (ha : a.linked = true) : Directory dents num sems (update flags o a) (update touches t none) := by
  have htake : ∀ j, Has (update touches t none) j ↔ j ≠ i ∧ Has touches j := fun j => has_take ht hone
  obtain ⟨h1, h2, h3⟩ := h
  constructor <;> grind [update_apply]

theorem Directory.unlink (h : Directory dents num sems flags touches) (ht : touches t = none)
    (hi : dents i = some d) (hinj : ∀ k, sems k = some o → k = d.semnum)
    (a : Flags) : Directory dents num sems (update flags o a) (update touches t (some i)) := by
  have hput : ∀ j, Has (update touches t (some i)) j ↔ j = i ∨ Has touches j := fun j => has_put ht
  obtain ⟨h1, h2, h3⟩ := h
  constructor <;> grind [update_apply]

omit [DecidableEq T] in
/-- What is linked stays where it is. -/
theorem Directory.keep (h : Directory dents num sems flags touches) {sems' : ℕ → Option ℕ} {flags' : ℕ → Flags}
    (hk : ∀ k o, sems k = some o → (flags o).linked = true → sems' k = some o ∧ (flags' o).linked = true) :
    Directory dents num sems' flags' touches := by
  obtain ⟨h1, h2, h3⟩ := h
  constructor <;> grind

end Directory

/-- A semaphore has a vnode in the table exactly if its flag says so. -/
structure Tied (table : List ℕ) (vnode : ℕ → Vnode) (sems : ℕ → Option ℕ) (flags : ℕ → Flags) : Prop where
  flagged : ∀ v ∈ table, (vnode v).number = SEMFS_ROOTDIR ∨
    ∃ o, sems (vnode v).number = some o ∧ (flags o).hasvnode = true
  loaded : ∀ o, (flags o).hasvnode = true →
    ∃ v ∈ table, (vnode v).number ≠ SEMFS_ROOTDIR ∧ sems (vnode v).number = some o

section Tied

variable {table : List ℕ} {vnode : ℕ → Vnode} {v : ℕ}

theorem Tied.keep (h : Tied table vnode sems flags) {vnode' : ℕ → Vnode} {sems' : ℕ → Option ℕ}
    {flags' : ℕ → Flags} (hv : ∀ v ∈ table, (vnode' v).number = (vnode v).number)
    (hf : ∀ o, (flags' o).hasvnode = (flags o).hasvnode)
    (hk : ∀ k o, sems k = some o → (flags o).hasvnode = true → sems' k = some o) :
    Tied table vnode' sems' flags' := by
  obtain ⟨h1, h2⟩ := h
  constructor <;> grind

/-- The vnodes that were there are as they were. -/
theorem Tied.others (h : Tied table vnode sems flags) {n : Vnode} (hv : v ∉ table)
    (ho : (flags o).hasvnode = true) : ∃ w ∈ table ++ [v],
      (update vnode v n w).number ≠ SEMFS_ROOTDIR ∧ sems (update vnode v n w).number = some o := by
  obtain ⟨w, hw, hne, hk⟩ := h.loaded o ho
  have hwv : w ≠ v := fun he => hv (he ▸ hw)
  exact ⟨w, List.mem_append_left _ hw, by rwa [update_of_ne hwv], by rwa [update_of_ne hwv]⟩

/-- The vnode of the root directory. -/
theorem Tied.addRoot (h : Tied table vnode sems flags) {n : Vnode} (hv : v ∉ table)
    (hn : n.number = SEMFS_ROOTDIR) : Tied (table ++ [v]) (update vnode v n) sems flags := by
  have h1 := h.flagged
  constructor
  · grind [update_apply]
  · exact fun o ho => h.others hv ho

theorem Tied.add (h : Tied table vnode sems flags) {n : Vnode} (hv : v ∉ table) (hn : n.number ≠ SEMFS_ROOTDIR)
    (hk : sems n.number = some o) {a : Flags} (ha : a.hasvnode = true) :
    Tied (table ++ [v]) (update vnode v n) sems (update flags o a) := by
  have h1 := h.flagged
  constructor
  · grind [update_apply]
  · intro p hp
    by_cases hpo : p = o
    · exact ⟨v, by simp, by rwa [update_self], by rw [update_self, hk, hpo]⟩
    · rw [update_of_ne hpo] at hp
      exact h.others hv hp

theorem Tied.removeRoot (h : Tied table vnode sems flags) (hnd : table.Nodup)
    (hn : (vnode v).number = SEMFS_ROOTDIR) : Tied (table.erase v) vnode sems flags := by
  obtain ⟨h1, h2⟩ := h
  constructor <;> grind [List.Nodup.mem_erase_iff]

/-- The only vnode with its number. -/
theorem Tied.remove (h : Tied table vnode sems flags) (hnd : table.Nodup) (hv : v ∈ table)
    (hone : ∀ w ∈ table, (vnode w).number = (vnode v).number → w = v) (hk : sems (vnode v).number = some o)
    (hinj : ∀ k, sems k = some o → k = (vnode v).number) {a : Flags} (ha : a.hasvnode = false)
    {sems' : ℕ → Option ℕ} (hs : ∀ k, k ≠ (vnode v).number → sems' k = sems k) :
    Tied (table.erase v) vnode sems' (update flags o a) := by
  obtain ⟨h1, h2⟩ := h
  constructor <;> grind [update_apply, List.Nodup.mem_erase_iff]

end Tied

end OS161.SemDirectory
