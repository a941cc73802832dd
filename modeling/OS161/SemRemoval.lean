import OS161.SemVnodes

/-!
# Removing and using a semaphore

`semfs_remove` unlinks a semaphore under its lock and destroys it if it has no
vnode. Whoever reads or writes one has a reference to its vnode meanwhile.
-/

set_option autoImplicit false

namespace OS161.SemDirectory

open Function OS161.Vfs OS161.References OS161.Runs

variable {T : Type} [DecidableEq T] {s s' : State T} {t u : T} {x y : Place} {o k v : ℕ}

theorem removeGet_steps {i : ℕ} (h : Inv s) (hp : s.place t = .removeGet i k) : Steps (removeGet t i k s) := by
  refine ensures_acquire rfl (h.tab_ne hp rfl) ?_
  intro hn
  have hf : Facts s (.removeGet i k) := hp ▸ h.facts t
  obtain ⟨o, hs, -⟩ := h.entry_linked (t := t) (by rw [hp]; rfl) (by rw [hp]; rfl) hf
  rw [semarrayGet_ok h hs rfl rfl rfl]
  exact h.quiet hp (h.dir.stay (by rw [hp]; rfl)) (h.tab_taken hn rfl) rfl rfl rfl rfl rfl rfl rfl ⟨hf, hs⟩

theorem Inv.lock_taken (h : Inv s) {m : Sem T} (hn : (s.sem o).lock = none) (hm : m.lock = some t)
    (hx : lockOf x = some o) (hy : lockOf (s.place t) = none) (p : ℕ) :
    Owner (update s.sem o m p).lock
      (update (fun u => decide (lockOf (s.place u) = some p)) t (decide (lockOf x = some p))) := by
  by_cases hpo : p = o
  · subst hpo
    rw [update_self, hm, hx]
    simpa using Owner.take (hn ▸ h.locks p) t
  · rw [update_of_ne hpo]
    exact (h.locks p).stay (by simp [hx, hy, Ne.symm hpo])

theorem Inv.lock_left (h : Inv s) {m : Sem T} (hl : (s.sem o).lock = some t) (hm : m.lock = none)
    (hx : lockOf x = none) (hy : lockOf (s.place t) = some o) (p : ℕ) :
    Owner (update s.sem o m p).lock
      (update (fun u => decide (lockOf (s.place u) = some p)) t (decide (lockOf x = some p))) := by
  by_cases hpo : p = o
  · subst hpo
    rw [update_self, hm, hx]
    simpa using Owner.leave (hl ▸ h.locks p)
  · rw [update_of_ne hpo]
    exact (h.locks p).stay (by simp [hx, hy, Ne.symm hpo])

omit [DecidableEq T] in
theorem flags_relock {sem : ℕ → Sem T} {m : Sem T} (hm : m.flags = (sem o).flags) :
    (fun p => (update sem o m p).flags) = fun p => (sem p).flags := by
  rw [flags_update, hm]
  exact update_eq_self o _

omit [DecidableEq T] in
theorem Inv.lock_eq (h : Inv s) (hp : lockOf (s.place t) = some o) : (s.sem o).lock = some t :=
  (h.locks o t).mpr (by simp [hp])

omit [DecidableEq T] in
theorem Inv.lock_ne (h : Inv s) (hp : lockOf (s.place t) = none) : (s.sem o).lock ≠ some t := by
  simp [h.locks o t, hp]

theorem removeLock_steps {i : ℕ} (h : Inv s) (hp : s.place t = .removeLock i k o) :
    Steps (removeLock t i k o s) := by
  obtain ⟨hi, hs⟩ : Facts s (.removeLock i k o) := hp ▸ h.facts t
  have hin : inDir (s.place t) = true := by rw [hp]; rfl
  have hlive : (s.sem o).live = true := h.reg.live k o hs
  have hlinked : (s.sem o).linked = true := by
    obtain ⟨p, hsp, hl⟩ := h.entry_linked (t := t) hin (by rw [hp]; rfl) hi
    obtain rfl : p = o := Option.some.inj (hsp.symm.trans hs)
    exact hl
  obtain ⟨d, hd, rfl⟩ := hi
  have hone : ∀ u, owns (s.place u) = some o → u = t := fun u hu => h.alone hin owns_outside hu
  have howns : owns (s.place t) = none := by rw [hp]; rfl
  rw [removeLock, acquireSem, if_pos hlive]
  refine ensures_acquire rfl (h.lock_ne (by rw [hp]; rfl)) ?_
  intro hn
  rw [if_pos hlinked]
  have hflags : (⟨(s.sem o).live, (s.sem o).hasvnode, false⟩ : Flags) = ⟨true, (s.sem o).hasvnode, false⟩ := by
    rw [hlive]
  have hstep : ∀ x, inDir x = true → inTable x = false → lockOf x = some o → detached x = none →
      touches x = some i → hand x = none → gone x = none →
      (owns x = some o ∧ (s.sem o).hasvnode = false ∨ owns x = none ∧ (s.sem o).hasvnode = true) →
      Facts (s.setSem o { s.sem o with lock := some t, linked := false }) x →
      Inv ((s.setSem o { s.sem o with lock := some t, linked := false }).goto t x) := by
    intro x hx hxt hxl hxd hxi hxh hxg hxo hf
    refine h.buildSems hp rfl (flags_update ..) rfl rfl rfl rfl hxh hxg rfl (h.dir.stay (hx.trans hin.symm))
      (h.tab.stay (by rw [hp, hxt]; rfl)) (h.lock_taken hn rfl hxl (by rw [hp]; rfl)) ?_ ?_ ?_ ?_ ?_
    · rw [role_same detached s.place (by rw [hp, hxd]; rfl)]
      show Registry _ _ (update _ o ⟨(s.sem o).live, (s.sem o).hasvnode, false⟩) _ _ _
      rw [hflags]
      refine h.reg.reflag hs hone (.inr howns) (by rw [hp]; rfl) ?_
      exact hxo.imp (fun hno => ⟨hno.1, hno.2, rfl⟩) (fun hv => ⟨hv.1, .inl hv.2⟩)
    · rw [hxi]
      exact h.direc.unlink (by rw [hp]; rfl) hd (fun j hj => h.reg.inj _ _ _ hj hs) _
    · refine h.tied.keep (fun _ _ => rfl) ?_ (fun _ _ hk _ => hk)
      intro p
      by_cases hpo : p = o
      · subst hpo
        rw [update_self]
        rfl
      · rw [update_of_ne hpo]
    · exact hf.keep (fun _ => ⟨rfl, rfl⟩) (fun _ _ => rfl) (fun _ _ _ hk => hk) (fun _ _ _ hk => hk) (fun _ _ hk => hk)
    · exact h.bystanders (fun u hu => h.only_dir hin hu) (fun _ _ => rfl) (fun _ _ hk _ => hk)
  by_cases hv : (s.sem o).hasvnode = true
  · rw [if_pos hv]
    refine hstep _ rfl rfl rfl rfl rfl rfl rfl (.inr ⟨rfl, hv⟩) ⟨⟨d, hd, rfl⟩, hs, ?_⟩
    simp [Half, State.setSem, hlive, hv]
  · rw [if_neg hv]
    exact hstep _ rfl rfl rfl rfl rfl rfl rfl (.inl ⟨rfl, by simpa using hv⟩) ⟨⟨d, hd, rfl⟩, hs⟩

theorem removeUnlock_steps {i : ℕ} {d : Bool} (h : Inv s) (hp : s.place t = .removeUnlock i k o d) :
    Steps (removeUnlock t i o d s) := by
  have hin : inDir (s.place t) = true := by rw [hp]; rfl
  have hlo : lockOf (s.place t) = some o := by rw [hp]; rfl
  have hlive := h.lock_live hlo
  have hl := h.lock_eq hlo
  have hone : ∀ u, touches (s.place u) = some i → u = t := fun u hu => h.alone hin touches_outside hu
  rw [removeUnlock, releaseSem, if_pos hlive]
  refine ensures_release hl ?_
  cases d with
  | false =>
    refine h.buildSems hp rfl (flags_relock rfl) rfl rfl rfl rfl rfl rfl rfl (h.dir.stay (by rw [hp]; rfl))
      (h.tab.stay (by rw [hp]; rfl)) (h.lock_left hl rfl rfl hlo) ?_ (h.direc.clear (by rw [hp]; rfl) hone) h.tied
      trivial ?_
    · rw [role_same owns s.place (by rw [hp]; rfl), role_same detached s.place (by rw [hp]; rfl)]
      exact h.reg
    · exact h.bystanders (fun u hu => h.only_dir hin hu) (fun _ _ => rfl) (fun _ _ hk _ => hk)
  | true =>
    have hd : detached (s.place t) = some o := by rw [hp]; rfl
    obtain ⟨hflags, hreg, hdirec, htied⟩ := h.destroyed hd hin rfl
    have hsem : update (update s.sem o { s.sem o with lock := none }) o
        ⟨false, none, (s.sem o).hasvnode, (s.sem o).linked⟩ =
        update s.sem o ⟨false, none, (s.sem o).hasvnode, (s.sem o).linked⟩ := update_idem ..
    have hdone : semfsSemDestroy o (s.setSem o { s.sem o with lock := none }) =
        .ok { s with sem := update s.sem o ⟨false, none, (s.sem o).hasvnode, (s.sem o).linked⟩ } := by
      rw [semDestroy_ok (by simp [State.setSem, hlive]) (by simp [State.setSem])]
      simp only [State.setSem, update_self, hsem]
    have hgone : (⟨false, none, (s.sem o).hasvnode, (s.sem o).linked⟩ : Sem T).flags = ⟨false, false, false⟩ := by
      have hv : (s.sem o).hasvnode = false := congrArg Flags.hasvnode hflags
      have hlk : (s.sem o).linked = false := congrArg Flags.linked hflags
      simp [Sem.flags, hv, hlk]
    simp only [if_true, hdone]
    refine h.buildSems hp rfl ((flags_update ..).trans (by rw [hgone])) rfl rfl rfl rfl rfl rfl rfl
      (h.dir.stay (by rw [hp]; rfl)) (h.tab.stay (by rw [hp]; rfl)) (h.lock_left hl rfl rfl hlo) hreg
      (hdirec.clear (by rw [hp]; rfl) hone) htied trivial ?_
    exact h.bystanders (fun u hu => h.only_dir hin hu) (fun _ _ => rfl) (fun _ _ hk _ => hk)

/-- A reference goes from the callers to the thread. -/
theorem Inv.grabs (h : Inv s) (hp : s.place t = y) (hv : 0 < s.held v) (hd : inDir x = inDir y)
    (htb : inTable x = inTable y) (hl : lockOf x = lockOf y) (ho : owns x = owns y)
    (hdt : detached x = detached y) (ht : touches x = touches y) (hh : hand x = some v ∧ hand y = none)
    (hg : gone x = none) (hx : Facts s x) :
    Inv ({ s with held := update s.held v (s.held v-1) }.goto t x) := by
  subst hp
  refine h.buildRefs rfl (h.dir.stay hd) (h.tab.stay htb) hl ho hdt ht ?_ h.tied ?_ hg
    (fun _ _ => ⟨Iff.rfl, rfl⟩) ?_ hx
  · rw [hh.1]
    exact h.refs.grab hv hh.2
  · intro w hw
    obtain rfl : v = w := Option.some.inj (hh.1.symm.trans hw)
    exact h.refs.outside v hv
  · rintro w ⟨u, -, hu⟩ hw
    obtain rfl : v = w := Option.some.inj (hh.1.symm.trans hw)
    exact (h.out u v hu).1 (h.refs.outside v hv)

/-! Threads in the operations of a semaphore. -/

omit [DecidableEq T] in
/-- What is known of an unlocked state also holds elsewhere. -/
theorem Inv.others_keep (h : Inv s) (hd : s'.dents = s.dents) (hnum : s'.numDents = s.numDents)
    (hv : s'.vnode = s.vnode) (hs : s'.sems = s.sems) (hf : ∀ o, Half s o → Half s' o) (u : T) :
    Facts s' (s.place u) :=
  (h.facts u).keep (fun _ => ⟨hd, hnum⟩) (fun _ _ => by rw [hv]) (fun _ _ _ hk => by rw [hs]; exact hk)
    (fun _ _ _ hk => by rw [hs]; exact hk) (fun o _ hk => hf o hk)

theorem useGet_steps (h : Inv s) (hp : s.place t = .useGet v) : Steps (useGet t v s) := by
  refine ensures_acquire rfl (h.tab_ne hp rfl) ?_
  intro hn
  have hf : Facts s (.useGet v) := hp ▸ h.facts t
  obtain hroot | ⟨o, hs, -⟩ := h.tied.flagged v (h.not_gone (t := t) (by rw [hp]; rfl) (by rw [hp]; rfl))
  · exact absurd hroot hf
  · rw [semarrayGet_ok h hs rfl rfl rfl]
    exact h.quiet hp (h.dir.stay (by rw [hp]; rfl)) (h.tab_taken hn rfl) rfl rfl rfl rfl rfl rfl rfl ⟨hf, hs⟩

/-- Only the lock of a semaphore changes hands. -/
theorem Inv.relocked (h : Inv s) (hp : s.place t = y) {m : Sem T} (hm : m.flags = (s.sem o).flags)
    (hlocks : ∀ p, Owner (update s.sem o m p).lock
      (update (fun u => decide (lockOf (s.place u) = some p)) t (decide (lockOf x = some p))))
    (hd : inDir x = inDir y) (ht : inTable x = inTable y) (ho : owns x = owns y) (hdt : detached x = detached y)
    (htc : touches x = touches y) (hh : hand x = hand y) (hg : gone x = none) (hg' : gone y = none)
    (hf : Facts s x) : Inv ((s.setSem o m).goto t x) := by
  subst hp
  have hhalf : ∀ p, Half s p → Half (s.setSem o m) p := by
    intro p hhp
    by_cases hpo : p = o
    · subst hpo
      obtain ⟨h1, h2, h3⟩ := hhp
      simp only [Half, State.setSem, update_self]
      exact ⟨(congrArg Flags.live hm).trans h1, (congrArg Flags.linked hm).trans h2,
        (congrArg Flags.hasvnode hm).trans h3⟩
    · simpa [Half, State.setSem, update_of_ne hpo] using hhp
  refine h.buildSems rfl rfl (flags_relock hm) rfl rfl rfl rfl hh hg hg' (h.dir.stay hd) (h.tab.stay ht) hlocks ?_ ?_
    h.tied ?_ ?_
  · rw [role_same owns s.place ho, role_same detached s.place hdt]
    exact h.reg
  · rw [role_same touches s.place htc]
    exact h.direc
  · exact hf.keep (fun _ => ⟨rfl, rfl⟩) (fun _ _ => rfl) (fun _ _ _ hk => hk) (fun _ _ _ hk => hk)
      (fun p _ hk => hhalf p hk)
  · intro u _
    have hd : ((s.setSem o m).goto t x).dents = s.dents := rfl
    exact h.others_keep hd rfl rfl rfl hhalf u

theorem useLock_steps (h : Inv s) (hp : s.place t = .useLock v o) : Steps (useLock t v o s) := by
  have hf : Facts s (.useLock v o) := hp ▸ h.facts t
  have hlive : (s.sem o).live = true := h.reg.live _ _ hf.2
  rw [useLock, acquireSem, if_pos hlive]
  refine ensures_acquire rfl (h.lock_ne (by rw [hp]; rfl)) ?_
  intro hn
  exact h.relocked hp rfl (h.lock_taken hn rfl rfl (by rw [hp]; rfl)) rfl rfl rfl rfl rfl rfl rfl rfl hf

theorem useUnlock_steps {wait : Bool} (h : Inv s) (hp : s.place t = .useUnlock v o) :
    Steps (useUnlock t v o wait s) := by
  have hf : Facts s (.useUnlock v o) := hp ▸ h.facts t
  have hlo : lockOf (s.place t) = some o := by rw [hp]; rfl
  have hl := h.lock_eq hlo
  rw [useUnlock, releaseSem, if_pos (h.lock_live hlo)]
  refine ensures_release hl ?_
  -- to give the lock back and to give the reference back are two steps in one
  have hw : Inv ((s.setSem o { s.sem o with lock := none }).goto t (.useLock v o)) :=
    h.relocked hp rfl (h.lock_left hl rfl rfl hlo) rfl rfl rfl rfl rfl rfl rfl rfl hf
  cases wait with
  | true => exact hw
  | false =>
    have hpl : ((s.setSem o { s.sem o with lock := none }).goto t (.useLock v o)).place t = .useLock v o :=
      update_self ..
    have hg := hw.gives (x := .idle (.ok none)) hpl rfl rfl (hw.dir.stay (by rw [hpl]; rfl))
      (hw.tab.stay (by rw [hpl]; rfl)) rfl rfl rfl rfl rfl rfl trivial
    simpa [Ensures, State.goto, State.setSem, update_idem] using hg

end OS161.SemDirectory
