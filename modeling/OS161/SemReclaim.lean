import OS161.SemRemoval

/-!
# Giving back a vnode

The last reference takes the vnode out of the table and, if the semaphore is
unlinked, destroys it. This may meet a remove that still has the lock.
-/

set_option autoImplicit false

namespace OS161.SemDirectory

open Function OS161.Vfs OS161.References OS161.Runs

variable {T : Type} [DecidableEq T] {s s' : State T} {t u : T} {x y : Place} {o k v : ℕ}

/-- A `semfs_remove` that has left the semaphore with this number to its vnode
and still has its lock. -/
def leaves (k : ℕ) : Place → Prop
  | .removeUnlock _ j _ false => j = k
  | _ => False

omit [DecidableEq T] in
/-- Why a semaphore stays in the table. -/
theorem Inv.pinned (h : Inv s) (hr : refers (s.place u) = some (k, o)) :
    (s.sem o).linked = true ∨ (s.sem o).hasvnode = false ∨
      (∃ w, hand (s.place u) = some w ∧ gone (s.place u) = none ∧ (s.vnode w).number = k) ∨
      leaves k (s.place u) ∧ lockOf (s.place u) = some o := by
  have howned := h.reg.owned u o
  have hf := h.facts u
  cases hp : s.place u with
  | creatInserted name e p c =>
    rw [hp] at hr howned
    cases c with
    | error err => cases hr
    | ok j =>
      cases hr
      exact .inr (.inl (howned rfl).2.2)
  | getvnode j c =>
    rw [hp] at hr howned
    cases c with
    | creat i p =>
      cases hr
      exact .inr (.inl (howned rfl).2.2)
    | _ => cases hr
  | gotvnode j c r =>
    rw [hp] at hr howned hf
    cases c with
    | creat i p =>
      cases hr
      cases r with
      | error e => exact .inr (.inl (howned rfl).2.2)
      | ok v => exact .inr (.inr (.inl ⟨v, rfl, rfl, (hf.2.2 v rfl).2⟩))
    | _ => cases hr
  | creatUninsert j p c =>
    rw [hp] at hr howned
    cases hr
    exact .inr (.inl (howned rfl).2.2)
  | removeTable i j p =>
    rw [hp] at hr howned
    cases hr
    exact .inr (.inl (howned rfl).2.2)
  | removeGot i j p | removeLock i j p =>
    rw [hp] at hr hf
    cases hr
    obtain ⟨q, hs, hl⟩ := h.entry_linked (t := u) (by rw [hp]; rfl) (by rw [hp]; rfl) hf.1
    obtain rfl : q = o := Option.some.inj (hs.symm.trans hf.2)
    exact .inl hl
  | removeUnlock i j p d =>
    rw [hp] at hr
    cases d with
    | true => cases hr
    | false =>
      cases hr
      exact .inr (.inr (.inr ⟨rfl, rfl⟩))
  | _ =>
    rw [hp] at hr
    cases hr

theorem refers_of_halves (hh : halves y = some o) : ∃ k, refers y = some (k, o) := by
  cases y with
  | gotvnode k c r => cases c <;> cases r <;> simp_all [halves, refers]
  | removeUnlock i k p d => cases d <;> simp_all [halves, refers]
  | _ => simp_all [halves]

/-- The last reference to the vnode of a semaphore. -/
structure LastRef (s : State T) (t : T) (v o : ℕ) : Prop where
  place : s.place t = .reclaim v
  one : (s.vnode v).refcount ≤ 1
  sem : s.sems (s.vnode v).number = some o
  flag : (s.sem o).hasvnode = true

omit [DecidableEq T] in
/-- Nobody else has a reference to the vnode, or knows its semaphore by it. -/
theorem LastRef.alone (hl : LastRef s t v o) (h : Inv s) {w : ℕ} (hw : hand (s.place u) = some w)
    (hg : gone (s.place u) = none) (hk : (s.vnode w).number = (s.vnode v).number) : u = t := by
  have hv := h.not_gone (t := t) (v := v) (by rw [hl.place]; rfl) (by rw [hl.place]; rfl)
  obtain rfl := h.refs.unique w (h.not_gone hw hg) v hv hk
  exact (h.refs.alone (t := t) (by rw [hl.place]; rfl) hl.one).2.2 u hw

omit [DecidableEq T] in
/-- An unlinked semaphore that another thread refers to is locked by it. -/
theorem LastRef.referrer (hl : LastRef s t v o) (h : Inv s) (hut : u ≠ t) (hno : (s.sem o).linked = false)
    (hr : refers (s.place u) = some (k, o)) : leaves k (s.place u) ∧ lockOf (s.place u) = some o := by
  have hs : s.sems k = some o := by
    have hf := h.facts u
    cases hp : s.place u with
    | creatInserted name e p c => cases c <;> simp_all [refers, Facts]
    | getvnode j c => cases c <;> simp_all [refers, Facts]
    | gotvnode j c r => cases c <;> simp_all [refers, Facts]
    | removeUnlock i j p d => cases d <;> simp_all [refers, Facts]
    | _ => simp_all [refers, Facts]
  have hk := h.reg.inj k _ o hs hl.sem
  obtain hlk | hv | ⟨w, hw, hg, hnum⟩ | hlv := h.pinned hr
  · simp [hno] at hlk
  · simp [hl.flag] at hv
  · exact absurd (hl.alone h hw hg (hnum.trans hk)) hut
  · exact hlv

omit [DecidableEq T] in
/-- Who can have the lock of the semaphore then. -/
theorem LastRef.locked (hl : LastRef s t v o) (h : Inv s) (hlk : lockOf (s.place u) = some o) :
    leaves (s.vnode v).number (s.place u) := by
  have hno : ∀ p, owns (s.place u) = some p → p ≠ o := by
    rintro p hp rfl
    have : (s.sem p).hasvnode = false := (h.reg.owned u p hp).2.2
    simp [hl.flag] at this
  have hf := h.facts u
  cases hp : s.place u with
  | removeTable i j p | removeTabled i j p =>
    rw [hp] at hlk hno
    cases hlk
    exact absurd rfl (hno _ rfl)
  | removeUnlock i j p d =>
    rw [hp] at hlk hno hf
    cases hlk
    cases d with
    | true => exact absurd rfl (hno _ rfl)
    | false => exact h.reg.inj j _ o hf.2.1 hl.sem
  | useUnlock w p =>
    rw [hp] at hlk hf
    cases hlk
    have hut := hl.alone h (u := u) (by rw [hp]; rfl) (by rw [hp]; rfl) (h.reg.inj _ _ o hf.2 hl.sem)
    subst hut
    simp [hl.place] at hp
  | _ => simp [hp, lockOf] at hlk

omit [DecidableEq T] in
theorem LastRef.get (hl : LastRef s t v o) (h : Inv s) (tb : Option T) (table : List ℕ) :
    semarrayGet (s.vnode v).number { s with tablelock := tb, vnodes := table } = .ok o :=
  semarrayGet_ok h hl.sem rfl rfl rfl

/-- What is left of the table of vnodes, and who still has the vnode. -/
theorem Inv.taken (h : Inv s) (hp : s.place t = .reclaim v) (hone : (s.vnode v).refcount ≤ 1)
    (hpl : s'.place = update s.place t (.reclaimed v)) {fl : ℕ → Flags}
    (hfl : (fun p => (s'.sem p).flags) = fl) (hdl : s'.dirlock = s.dirlock) (htl : s'.tablelock = some t)
    (hn : s.tablelock = none) (hlock : ∀ p, (s'.sem p).lock = (s.sem p).lock)
    (hdd : s'.dents = s.dents) (hnd : s'.numDents = s.numDents) (hvt : s'.vnodes = s.vnodes.erase v)
    (hvn : s'.vnode = s.vnode) (hnx : s'.nextVnode = s.nextVnode) (hhl : s'.held = s.held)
    (hreg : Registry s'.sems s'.numSems fl s'.nextSem (fun u => owns (s.place u)) (fun u => detached (s.place u)))
    (hdirec : Directory s.dents s.numDents s'.sems fl (fun u => touches (s.place u)))
    (htied : Tied (s.vnodes.erase v) s.vnode s'.sems fl)
    (hothers : ∀ u, u ≠ t → Facts s' (s.place u)) : Inv s' := by
  have hhand : hand (s.place t) = some v := by rw [hp]; rfl
  have hv := h.not_gone (t := t) hhand (by rw [hp]; rfl)
  obtain ⟨-, -, halone⟩ := h.refs.alone (t := t) hhand hone
  refine h.build hpl hfl ?_ ?_ ?_ ?_ ?_ ?_ ?_ ?_ ?_ ?_ ?_ trivial hothers
  · rw [hdl]
    exact h.dir.stay (by rw [hp]; rfl)
  · rw [htl]
    exact h.tab_taken hn rfl
  · intro p
    rw [hlock]
    exact (h.locks p).stay (by rw [hp]; rfl)
  · rw [role_same owns s.place (by rw [hp]; rfl), role_same detached s.place (by rw [hp]; rfl)]
    exact hreg
  · rw [role_same touches s.place (by rw [hp]; rfl), hdd, hnd]
    exact hdirec
  · rw [role_same hand s.place (by rw [hp]; rfl), hvt, hvn, hnx, hhl]
    exact h.refs.remove (t := t) hhand hone
  · rw [hvt, hvn]
    exact htied
  · rintro w ⟨⟩
    exact .inl rfl
  · rintro w ⟨⟩
    rw [hvt]
    refine ⟨fun hm => ((h.refs.nodup.mem_erase_iff).mp hm).1 rfl, ?_⟩
    intro u hut hu
    exact hut (halone u hu)
  · intro u w hut hu hw
    rw [hvt]
    refine (h.refs.nodup.mem_erase_iff).mpr ⟨?_, hw⟩
    rintro rfl
    exact hut (halone u hu)
  · intro u w hut hu
    rw [hvt]
    refine ⟨fun hm => (h.out u w hu).1 (List.mem_of_mem_erase hm), ?_⟩
    rintro ⟨⟩
    exact hut (halone u (gone_hand hu))

/-- The semaphore is kept by its entry. -/
theorem LastRef.kept (hl : LastRef s t v o) (h : Inv s) (hn : s.tablelock = none) (hlk : (s.sem o).linked = true) :
    Inv (({ s with tablelock := some t, vnodes := s.vnodes.erase v }.setSem o
      { s.sem o with hasvnode := false }).goto t (.reclaimed v)) := by
  have hhand : hand (s.place t) = some v := by rw [hl.place]; rfl
  have hv := h.not_gone (t := t) hhand (by rw [hl.place]; rfl)
  have hnone : ∀ u, owns (s.place u) ≠ some o := by
    intro u hu
    have : (s.sem o).linked = false := (h.reg.owned u o hu).2.1
    simp [hlk] at this
  have hlive : (s.sem o).live = true := h.reg.live _ _ hl.sem
  have hflags : (⟨(s.sem o).live, false, (s.sem o).linked⟩ : Flags) = ⟨true, false, true⟩ := by rw [hlive, hlk]
  have hown : owns (s.place t) = none := by rw [hl.place]; rfl
  refine h.taken hl.place hl.one rfl (flags_update ..) rfl rfl hn ?_ rfl rfl rfl rfl rfl rfl ?_ ?_ ?_ ?_
  · intro p
    by_cases hpo : p = o
    · subst hpo
      simp [State.setSem, State.goto]
    · simp [State.setSem, State.goto, update_of_ne hpo]
  · have hreg := h.reg.reflag hl.sem (v := false) (l := true) (fun u hu => absurd hu (hnone u)) (.inr hown)
      (show detached (s.place t) = none by rw [hl.place]; rfl) (.inr ⟨rfl, .inr rfl⟩)
    rw [show update (fun u => owns (s.place u)) t none = fun u => owns (s.place u) by
      rw [← hown]
      exact update_eq_self t _] at hreg
    show Registry _ _ (update _ o ⟨(s.sem o).live, false, (s.sem o).linked⟩) _ _ _
    rwa [hflags]
  · refine h.direc.keep (fun k p hk hlp => ⟨hk, ?_⟩)
    by_cases hpo : p = o
    · subst hpo
      rw [update_self]
      exact hlp
    · rwa [update_of_ne hpo]
  · exact h.tied.remove h.refs.nodup hv (fun w hw hk => h.refs.unique w hw v hv hk) hl.sem
      (fun k hk => h.reg.inj _ _ _ hk hl.sem) rfl (fun _ _ => rfl)
  · intro u hut
    refine (h.facts u).keep (fun _ => ⟨rfl, rfl⟩) (fun _ _ => rfl) (fun _ _ _ hk => hk) (fun _ _ _ hk => hk) ?_
    intro p hp hhalf
    have hpo : p ≠ o := by
      rintro rfl
      simp [hhalf.2.1] at hlk
    simpa [Half, State.setSem, State.goto, update_of_ne hpo] using hhalf

/-- The semaphore goes away with the vnode. -/
theorem LastRef.discarded (hl : LastRef s t v o) (h : Inv s) (hn : s.tablelock = none)
    (hlk : (s.sem o).linked = false) (hfree : (s.sem o).lock = none) :
    Inv ({ s with
      tablelock := some t
      vnodes := s.vnodes.erase v
      sems := update s.sems (s.vnode v).number none
      sem := update s.sem o ⟨false, none, false, false⟩ }.goto t (.reclaimed v)) := by
  have hhand : hand (s.place t) = some v := by rw [hl.place]; rfl
  have hv := h.not_gone (t := t) hhand (by rw [hl.place]; rfl)
  have hne : ∀ u, lockOf (s.place u) ≠ some o := fun u hu => by simp [h.lock_eq hu] at hfree
  have hsame : ∀ k p, s.sems k = some p → p ≠ o → update s.sems (s.vnode v).number none k = some p := by
    intro k p hk hpo
    rwa [update_of_ne]
    rintro rfl
    exact hpo (Option.some.inj (hk.symm.trans hl.sem))
  refine h.taken hl.place hl.one rfl (flags_update ..) rfl rfl hn ?_ rfl rfl rfl rfl rfl rfl ?_ ?_ ?_ ?_
  · intro p
    by_cases hpo : p = o
    · subst hpo
      simp [State.goto, hfree]
    · simp [State.goto, update_of_ne hpo]
  · exact h.reg.discard hl.sem hl.flag
  · refine h.direc.keep ?_
    intro k p hk hlp
    have hpo : p ≠ o := by
      rintro rfl
      have : (s.sem p).linked = true := hlp
      simp [hlk] at this
    exact ⟨hsame k p hk hpo, by rwa [update_of_ne hpo]⟩
  · exact h.tied.remove h.refs.nodup hv (fun w hw hk => h.refs.unique w hw v hv hk) hl.sem
      (fun k hk => h.reg.inj _ _ _ hk hl.sem) rfl (fun _ hk => update_of_ne hk _ _)
  · intro u hut
    have hrefers : ∀ k, refers (s.place u) ≠ some (k, o) := fun k hk => hne u (hl.referrer h hut hlk hk).2
    refine (h.facts u).keep (fun _ => ⟨rfl, rfl⟩) (fun _ _ => rfl) ?_ ?_ ?_
    · intro k p hr hk
      refine hsame k p hk ?_
      rintro rfl
      exact hrefers k hr
    · intro w p huse hk
      refine hsame _ p hk ?_
      rintro rfl
      obtain ⟨hw, hg⟩ := hand_of_uses huse
      exact hut (hl.alone h hw hg (h.reg.inj _ _ _ hk hl.sem))
    · intro p hp hhalf
      have hpo : p ≠ o := by
        rintro rfl
        obtain ⟨k, hk⟩ := refers_of_halves hp
        exact hrefers k hk
      simpa [Half, State.goto, update_of_ne hpo] using hhalf

/-- What `semfs_reclaim` does about the semaphore. -/
theorem LastRef.dropped (hl : LastRef s t v o) (h : Inv s) (hn : s.tablelock = none) :
    (∃ s', dropSem (s.vnode v).number { s with tablelock := some t, vnodes := s.vnodes.erase v } = .ok s' ∧
      Inv (s'.goto t (.reclaimed v)) ∧ ∀ u, ¬leaves (s.vnode v).number (s.place u)) ∨
    dropSem (s.vnode v).number { s with tablelock := some t, vnodes := s.vnodes.erase v } = .error .panic ∧
      ∃ u, leaves (s.vnode v).number (s.place u) := by
  have hlive : (s.sem o).live = true := h.reg.live _ _ hl.sem
  have hhalf : ∀ u, leaves (s.vnode v).number (s.place u) → (s.sem o).linked = false ∧ (s.sem o).lock = some u := by
    intro u hu
    have hf := h.facts u
    cases hp : s.place u with
    | removeUnlock i j p d =>
      rw [hp] at hu hf
      cases d with
      | true => cases hu
      | false =>
        obtain rfl : j = (s.vnode v).number := hu
        obtain rfl : p = o := Option.some.inj (hf.2.1.symm.trans hl.sem)
        exact ⟨hf.2.2.2.1, h.lock_eq (by rw [hp]; rfl)⟩
    | _ =>
      rw [hp] at hu
      cases hu
  simp only [dropSem, hl.get h, hl.flag, Bool.true_eq_false, if_false]
  by_cases hlk : (s.sem o).linked = true
  · left
    refine ⟨_, if_pos (by simpa [State.setSem] using hlk), hl.kept h hn hlk, ?_⟩
    intro u hu
    simp [(hhalf u hu).1] at hlk
  · have hno : (s.sem o).linked = false := by simpa using hlk
    rw [if_neg (by simpa [State.setSem] using hlk)]
    cases hfree : (s.sem o).lock with
    | none =>
      left
      refine ⟨_, semDestroy_ok (by simp [State.setSem, hlive]) (by simp [State.setSem]), ?_, ?_⟩
      · have hd := hl.discarded h hn hno hfree
        simpa [State.setSem, State.goto, update_idem, hfree, hno] using hd
      · intro u hu
        simp [(hhalf u hu).2] at hfree
    | some u =>
      right
      refine ⟨by simp [semfsSemDestroy, State.setSem, hlive], u, ?_⟩
      exact hl.locked h (by simpa using (h.locks o u).mp hfree)

/-- The reclaiming stops the kernel exactly if it meets such a remove. -/
theorem semfsReclaim_steps (h : Inv s) (hp : s.place t = .reclaim v) :
    Ensures (fun e => e = .blocked ∨ e = .panic) Inv (semfsReclaim t v s) ∧
    (semfsReclaim t v s = .error .panic ↔
      s.tablelock = none ∧ (s.vnode v).refcount ≤ 1 ∧ ∃ u, leaves (s.vnode v).number (s.place u)) := by
  have hhand : hand (s.place t) = some v := by rw [hp]; rfl
  have hv := h.not_gone (t := t) hhand (by rw [hp]; rfl)
  have hlive : ¬(s.vnode v).live = false := by simp [h.refs.live v hv]
  have hne := h.tab_ne hp rfl
  rw [semfsReclaim, acquire, if_neg hne]
  by_cases hn : s.tablelock = none
  · rw [if_pos hn]
    simp only [if_neg hlive]
    by_cases hmany : 1 < (s.vnode v).refcount
    · rw [if_pos hmany]
      refine ⟨?_, by simp; omega⟩
      have hnum : ∀ w, (update s.vnode v { s.vnode v with refcount := (s.vnode v).refcount-1 } w).number =
          (s.vnode w).number := by
        intro w
        by_cases hw : w = v
        · subst hw
          rw [update_self]
        · rw [update_of_ne hw]
      exact h.buildRefs hp (h.dir.stay (by rw [hp]; rfl)) (h.tab_taken hn rfl) rfl rfl rfl rfl
        (h.refs.dropHand hhand hmany) (h.tied.keep (fun w _ => hnum w) (fun _ => rfl) (fun _ _ hk _ => hk))
        (by rintro w ⟨⟩) rfl (fun w _ => ⟨Iff.rfl, hnum w⟩) (by rintro w - ⟨⟩) trivial
    · rw [if_neg hmany]
      have hone : (s.vnode v).refcount ≤ 1 := by omega
      obtain hroot | ⟨o, hs, hflag⟩ := h.tied.flagged v hv
      · rw [if_pos hroot]
        refine ⟨?_, ?_⟩
        · exact h.taken hp hone rfl rfl rfl rfl hn (fun _ => rfl) rfl rfl rfl rfl rfl rfl h.reg h.direc
            (h.tied.removeRoot h.refs.nodup hroot)
            (fun u _ => h.others_keep rfl rfl rfl rfl (fun _ hk => hk) u)
        · simp only [reduceCtorEq, hn, hone, true_and, false_iff]
          rintro ⟨u, hu⟩
          have hf := h.facts u
          cases hpu : s.place u with
          | removeUnlock i j p d =>
            rw [hpu] at hu hf
            cases d with
            | true => cases hu
            | false => exact h.not_root hf.2.1 (hu.trans hroot)
          | _ =>
            rw [hpu] at hu
            cases hu
      · rw [if_neg (h.not_root hs)]
        obtain ⟨s', hd, hinv, hnone⟩ | ⟨hd, u, hu⟩ := LastRef.dropped ⟨hp, hone, hs, hflag⟩ h hn
        · rw [hd]
          exact ⟨hinv, by simpa using fun _ _ => hnone⟩
        · rw [hd]
          exact ⟨.inr rfl, by simpa using ⟨hn, hone, u, hu⟩⟩
  · rw [if_neg hn]
    exact ⟨.inl rfl, by simp [hn]⟩

theorem semfsVnodeDestroy_steps (h : Inv s) (hp : s.place t = .reclaimed v) : Steps (semfsVnodeDestroy t v s) := by
  have hl := h.tab_eq hp rfl
  have hhand : hand (s.place t) = some v := by rw [hp]; rfl
  obtain ⟨hout, halone⟩ := h.out t v (by rw [hp]; rfl)
  have hlive := h.refs.inHand t v hhand
  have hone := h.refs.single hout hhand halone
  rw [semfsVnodeDestroy]
  refine ensures_release hl ?_
  have hdead : ¬(s.vnode v).live = false := by simp [hlive]
  simp only [if_neg hdead, if_neg (not_not_intro hone)]
  have hnum : ∀ w, (update s.vnode v { s.vnode v with live := false } w).number = (s.vnode w).number := by
    intro w
    by_cases hw : w = v
    · subst hw
      rw [update_self]
    · rw [update_of_ne hw]
  exact h.buildRefs hp (h.dir.stay (by rw [hp]; rfl)) (h.tab_left hl rfl) rfl rfl rfl rfl
    (h.refs.free hout hhand halone) (h.tied.keep (fun w _ => hnum w) (fun _ => rfl) (fun _ _ hk _ => hk))
    (by rintro w ⟨⟩) rfl (fun w _ => ⟨Iff.rfl, hnum w⟩) (by rintro w - ⟨⟩) trivial

end OS161.SemDirectory
