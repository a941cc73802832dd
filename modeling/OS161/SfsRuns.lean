import OS161.SfsAnswers

/-!
# Every interleaving on a volume

Whatever the threads do, the volume stays sound, each vnode counts the references
to it, and the last one to let go of a vnode is alone with it. Nothing stops the
kernel.
-/

set_option autoImplicit false

namespace OS161.SfsThreads

open Function OS161.Vfs OS161.CopyInOut OS161.Sfs OS161.SfsIo OS161.SfsDir OS161.SfsVolume OS161.References OS161.Runs
open OS161.SharedDescriptor (Rw)
open OS161.Sfsck (SFS_ROOTDIR_INO SFS_TYPE_FILE SFS_TYPE_DIR Dinode)

variable {T : Type} [DecidableEq T] {s s' : State T} {t u : T} {x y : Place} {c : Call} {o : Outcome} {mem : Memory} {v g d : ℕ}
  {back : Option Result} {r : Result} {vol : Volume}

/-- What is true of a thread at each place. -/
def Facts (s : State T) (t : T) : Place → Prop
  | .idle _ => s.hand (t, false) = none ∧ s.hand (t, true) = none
  | .entering c => s.hand (t, false) = c.target ∧ s.hand (t, true) = c.second ∧ ∀ v, c.target = some v → c.Fits (s.vol.ino v)
  | .working c => 0 < nest s t ∧
      s.hand (t, false) = c.target ∧ s.hand (t, true) = c.second ∧ ∀ v, c.target = some v → c.Fits (s.vol.ino v)
  | .dropping d _ => 0 < nest s t ∧ s.hand (t, true) = some d
  | .reclaiming d back => s.hand (t, true) = some d ∧ (back = none → s.hand (t, false) = none) ∧ (back ≠ none → 0 < nest s t)
  | .checking d back => s.hand (t, true) = some d ∧ (back = none → s.hand (t, false) = none) ∧
      0 < nest s t ∧ (back ≠ none → 1 < nest s t)
  | .erasing d back => s.hand (t, true) = some d ∧ (back = none → s.hand (t, false) = none) ∧
      0 < nest s t ∧ (back ≠ none → 1 < nest s t) ∧ (s.vol.vnode d).refcount = 1
  | .leaving _ => 0 < nest s t

structure Inv (s : State T) : Prop where
  ready : Ready s.vol
  laid : Laid s.vol
  refs : Balanced s.vol.vnodes s.vol.vnode s.vol.nextVnode s.held s.hand
  listed : ∀ v, (s.vol.vnode v).live = true → v ∈ s.vol.vnodes
  facts : ∀ t, Facts s t (s.place t)

theorem nest_single (h : 0 < nest s t) (h' : 0 < nest s u) : t = u := by
  unfold nest at h h'
  split at h
  · next ht =>
    split at h'
    · next hu => exact Option.some.inj (ht.symm.trans hu)
    · omega
  · omega

theorem nest_goto (u : T) : nest (s.goto t x) u = nest s u := rfl

theorem acquire_ok (h : acquire t s = .ok s') : s' = { s with holder := s'.holder, depth := s'.depth } ∧
    nest s' t = nest s t + 1 ∧ ∀ u, u ≠ t → nest s' u = nest s u := by
  unfold acquire at h
  unfold nest
  split at h
  · next hfree =>
    cases h
    refine ⟨rfl, by simp [hfree], fun u hu => ?_⟩
    simp [hfree, Ne.symm hu]
  · next w hw =>
    split at h
    · next hwt =>
      cases h
      exact ⟨rfl, by simp [hw, hwt], fun u hu => by simp [hw, hwt, Ne.symm hu]⟩
    · cases h

theorem acquire_error {e : Stop} (h : acquire t s = .error e) : e = .blocked := by
  unfold acquire at h
  split at h
  · cases h
  · split at h
    · cases h
    · cases h
      rfl

theorem release_ok (h : 0 < nest s t) : ∃ s', release t s = .ok s' ∧ s' = { s with holder := s'.holder, depth := s'.depth } ∧
    nest s' t = nest s t - 1 ∧ ∀ u, u ≠ t → nest s' u = nest s u := by
  unfold nest at h
  split at h
  · next ht =>
    have hno : ¬(s.holder ≠ some t ∨ s.depth = 0) := by
      rintro (hne | hzero)
      · exact hne ht
      · omega
    simp only [release, if_neg hno]
    unfold nest
    split
    · next hone => exact ⟨_, rfl, rfl, by simp [hone], fun u hu => by simp [ht, Ne.symm hu]⟩
    · exact ⟨_, rfl, rfl, by simp [ht], fun u hu => by simp [ht, Ne.symm hu]⟩
  · omega

/-- What the step of a thread leaves to the others. -/
structure Apart (t : T) (s s' : State T) : Prop where
  hand : ∀ u, u ≠ t → ∀ b, s'.hand (u, b) = s.hand (u, b)
  nest : ∀ u, u ≠ t → nest s' u = SfsThreads.nest s u
  ino : ∀ v ∈ s.vol.vnodes, s'.vol.ino v = s.vol.ino v
  count : ∀ u, u ≠ t → ∀ d back, s.place u = .erasing d back → (s'.vol.vnode d).refcount = (s.vol.vnode d).refcount

omit [DecidableEq T] in
/-- A vnode in somebody's hand is in the table. -/
theorem Inv.inTable {y : T × Bool} [DecidableEq T] (h : Inv s) (hy : s.hand y = some v) : v ∈ s.vol.vnodes :=
  h.listed v (h.refs.inHand y v hy)

theorem Inv.listed_live (h : Inv s) (hv : v ∈ s.vol.vnodes) : (s.vol.vnode v).live = true := h.refs.live v hv

theorem Facts.apart (h : Inv s) (ha : Apart t s s') (hu : u ≠ t) (hf : Facts s u (s.place u)) : Facts s' u (s.place u) := by
  have hhand := ha.hand u hu
  have hnest := ha.nest u hu
  have hfits : ∀ c : Call, s.hand (u, false) = c.target → (∀ v, c.target = some v → c.Fits (s.vol.ino v)) →
      ∀ v, c.target = some v → c.Fits (s'.vol.ino v) := by
    intro c hc hfit v hv
    rw [ha.ino v (h.inTable (hc.trans hv))]
    exact hfit v hv
  cases hx : s.place u with
  | idle r =>
    rw [hx] at hf
    simpa only [Facts, hhand] using hf
  | entering c =>
    rw [hx] at hf
    simp only [Facts, hhand] at hf ⊢
    exact ⟨hf.1, hf.2.1, hfits c hf.1 hf.2.2⟩
  | working c =>
    rw [hx] at hf
    simp only [Facts, hhand, hnest] at hf ⊢
    exact ⟨hf.1, hf.2.1, hf.2.2.1, hfits c hf.2.1 hf.2.2.2⟩
  | dropping d r =>
    rw [hx] at hf
    simpa only [Facts, hhand, hnest] using hf
  | reclaiming d back =>
    rw [hx] at hf
    simpa only [Facts, hhand, hnest] using hf
  | checking d back =>
    rw [hx] at hf
    simpa only [Facts, hhand, hnest] using hf
  | erasing d back =>
    rw [hx] at hf
    simpa only [Facts, hhand, hnest, ha.count u hu d back hx] using hf
  | leaving r =>
    rw [hx] at hf
    simpa only [Facts, hnest] using hf

/-- One thread goes on. -/
theorem Inv.next (h : Inv s) (ha : Apart t s s') (hplace : s'.place = update s.place t x) (hready : Ready s'.vol)
    (hlaid : Laid s'.vol) (hrefs : Balanced s'.vol.vnodes s'.vol.vnode s'.vol.nextVnode s'.held s'.hand)
    (hlisted : ∀ v, (s'.vol.vnode v).live = true → v ∈ s'.vol.vnodes) (hf : Facts s' t x) : Inv s' := by
  refine ⟨hready, hlaid, hrefs, hlisted, fun u => ?_⟩
  rw [hplace]
  by_cases hu : u = t
  · rw [hu, update_self]
    exact hf
  · rw [update_of_ne hu]
    exact (h.facts u).apart h ha hu

/-- The volume stays, and the references. -/
theorem Inv.move (h : Inv s) (hvol : s'.vol = s.vol) (hheld : s'.held = s.held) (hhand : s'.hand = s.hand)
    (hplace : s'.place = update s.place t x) (hnest : ∀ u, u ≠ t → nest s' u = nest s u) (hf : Facts s' t x) : Inv s' := by
  refine h.next (t := t) (x := x) ⟨fun _ _ _ => by rw [hhand], hnest, fun _ _ => by rw [hvol], fun _ _ _ _ _ => by rw [hvol]⟩
    hplace ?_ ?_ ?_ ?_ hf
  · rw [hvol]
    exact h.ready
  · rw [hvol]
    exact h.laid
  · rw [hvol, hheld, hhand]
    exact h.refs
  · rw [hvol]
    exact h.listed

/-- Under the lock, nobody else is about to erase a vnode. -/
theorem Inv.quiet (h : Inv s) (ht : 0 < nest s t) (hu : u ≠ t) : s.place u ≠ .erasing d back := by
  intro hx
  have hf := h.facts u
  rw [hx] at hf
  exact hu (nest_single hf.2.2.1 ht)

/-- The vnode that is about to be erased has no other references. -/
theorem Inv.untouched (h : Inv s) (hx : s.place u = .erasing d back) : s.held d = 0 ∧ ∀ y, s.hand y = some d → y = (u, true) := by
  have hf := h.facts u
  rw [hx] at hf
  obtain ⟨hheld, -, halone⟩ := h.refs.alone hf.1 (by rw [hf.2.2.2.2])
  exact ⟨hheld, halone⟩

theorem hand_apart (hu : u ≠ t) (b b' : Bool) (z : Option ℕ) : update s.hand (t, b) z (u, b') = s.hand (u, b') :=
  update_of_ne (fun heq => hu (congrArg Prod.fst heq)) _ _

theorem hand_other {b b' : Bool} (hb : b' ≠ b) (z : Option ℕ) : update s.hand (t, b) z (t, b') = s.hand (t, b') :=
  update_of_ne (fun heq => hb (congrArg Prod.snd heq)) _ _

theorem vnodeCheck_ok (h : Inv s) (hlive : (s.vol.vnode v).live = true) : vnodeCheck v s.vol = .ok () := by
  have hpos := h.refs.pos hlive
  rw [vnodeCheck, if_neg (by simp [hlive]), if_neg (Nat.ne_of_gt hpos)]

/-! A new count, of a vnode that somebody else does not erase. -/

theorem recount_ino (v n w : ℕ) (s : Volume) : (recount v n s).ino w = s.ino w := by
  show (update s.vnode v { s.vnode v with refcount := n } w).number = (s.vnode w).number
  by_cases hw : w = v
  · subst hw
    rw [update_self]
  · rw [update_of_ne hw]

theorem recount_live (v n w : ℕ) (s : Volume) : ((recount v n s).vnode w).live = (s.vnode w).live := by
  show (update s.vnode v { s.vnode v with refcount := n } w).live = _
  by_cases hw : w = v
  · subst hw
    rw [update_self]
  · rw [update_of_ne hw]

theorem recount_ready {s : Volume} (h : Ready s) (v n : ℕ) : Ready (recount v n s) := by
  have hinode : ∀ j, inodeOf (recount v n s) j = inodeOf s j := by
    intro j
    unfold inodeOf
    simp only [recount_ino]
    rfl
  obtain ⟨hsound, -⟩ : Sound 0 0 0 (recount v n s) ∧ _ := h.sound.congr rfl rfl rfl rfl rfl hinode
    (fun j hdir => present_congr hdir (fun l => by unfold Loaded; simp only [recount_ino]; rfl) j)
    (fun u hu hclean => by rw [recount_ino]; exact h.sound.clean u hu hclean)
  refine ⟨hsound, ?_, ?_, h.table.fresh, h.table.nodup⟩
  · intro u hu x hx
    rw [recount_ino, recount_ino]
    exact h.table.unique u hu x hx
  · intro u hu
    rw [recount_live]
    exact h.table.live u hu

/-- The thread changes the count of a vnode, and its own references to it. -/
theorem Inv.recounted {n : ℕ} (h : Inv s) (hvol : s'.vol = recount v n s.vol) (hplace : s'.place = update s.place t x)
    (hhand : ∀ u, u ≠ t → ∀ b, s'.hand (u, b) = s.hand (u, b)) (hnest : ∀ u, u ≠ t → nest s' u = nest s u)
    (hown : ∀ u, u ≠ t → ∀ back, s.place u ≠ .erasing v back)
    (hrefs : Balanced s.vol.vnodes (update s.vol.vnode v { s.vol.vnode v with refcount := n }) s.vol.nextVnode s'.held s'.hand)
    (hf : Facts s' t x) : Inv s' := by
  refine h.next (t := t) (x := x) ⟨hhand, hnest, ?_, ?_⟩ hplace ?_ ?_ ?_ ?_ hf
  · intro w _
    rw [hvol, recount_ino]
  · intro u hu d back hx
    have hne : d ≠ v := by
      rintro rfl
      exact hown u hu back hx
    rw [hvol]
    show (update s.vol.vnode v _ d).refcount = _
    rw [update_of_ne hne]
  · rw [hvol]
    exact recount_ready h.ready v n
  · rw [hvol]
    exact h.laid.congr rfl rfl
  · rw [hvol]
    exact hrefs
  · intro w hw
    rw [hvol, recount_live] at hw
    rw [hvol]
    exact h.listed w hw

abbrev Steps (x : Except Stop (State T)) : Prop := Ensures (· = .blocked) Inv x

/-! Callers. -/

theorem goto_same (hx : s.place t = x) : s.place = update s.place t x := by rw [← hx, update_eq_self]

theorem Inv.held_own (h : Inv s) (hheld : s.held v ≠ 0) (u : T) (back : Option Result) : s.place u ≠ .erasing v back :=
  fun hx => hheld (h.untouched hx).1

theorem callerIncref_steps (h : Inv s) (hx : s.place t = .idle r) (v : ℕ) : Steps (callerIncref v s) := by
  unfold callerIncref
  split
  · exact rfl
  · next hheld =>
    have hf := h.facts t
    rw [hx] at hf
    exact h.recounted rfl (goto_same hx) (fun _ _ _ => rfl) (fun _ _ => rfl) (fun u _ => h.held_own hheld u)
      (h.refs.incref (Nat.pos_of_ne_zero hheld)) hf

theorem callerDecref_steps (h : Inv s) (hx : s.place t = .idle r) (v : ℕ) : Steps (callerDecref t v s) := by
  unfold callerDecref
  split
  · exact rfl
  · next hheld =>
    have hf := h.facts t
    rw [hx] at hf
    have hpos := Nat.pos_of_ne_zero hheld
    simp only [vnodeDecref, vnodeCheck_ok h (h.refs.live_of_held hheld)]
    by_cases hmany : 1 < (s.vol.vnode v).refcount
    · simp only [if_pos hmany]
      exact h.recounted rfl (goto_same hx) (fun _ _ _ => rfl) (fun _ _ => rfl) (fun u _ => h.held_own hheld u)
        (h.refs.drop hpos hmany) hf
    · simp only [if_neg hmany]
      refine h.next (t := t) (x := .reclaiming v none) ⟨fun u hu b => hand_apart hu true b _, fun _ _ => rfl, fun _ _ => rfl,
        fun _ _ _ _ _ => rfl⟩ rfl h.ready h.laid (h.refs.grab hpos hf.2) h.listed ⟨update_self .., fun _ => ?_, fun hno => absurd rfl hno⟩
      exact (hand_other (by decide) _).trans hf.1

theorem acquire_steps (h : Inv s) (hx : s.place t = .idle r) : Steps (acquire t s) := by
  cases hrun : acquire t s with
  | error e => exact acquire_error hrun
  | ok s' =>
    obtain ⟨heq, -, hnest⟩ := acquire_ok hrun
    have hf := h.facts t
    rw [hx] at hf
    rw [heq]
    exact h.move rfl rfl rfl (goto_same hx) (fun u hu => by rw [← heq]; exact hnest u hu) hf

theorem release_steps (h : Inv s) (hx : s.place t = .idle r) :
    Steps (if nest s t = 0 then .error .blocked else release t s) := by
  split
  · exact rfl
  · next hnest =>
    obtain ⟨s', hrun, heq, -, hother⟩ := release_ok (Nat.pos_of_ne_zero hnest)
    have hf := h.facts t
    rw [hx] at hf
    rw [hrun, heq]
    exact h.move rfl rfl rfl (goto_same hx) (fun u hu => by rw [← heq]; exact hother u hu) hf

/-! A call begins. -/

theorem Inv.typed (h : Inv s) (hv : v ∈ s.vol.vnodes) : (s.vol.core v).type = SFS_TYPE_DIR ↔ s.vol.ino v = SFS_ROOTDIR_INO := by
  constructor
  · intro htype
    by_contra hne
    rw [h.ready.file hv hne] at htype
    cases htype
  · exact fun hroot => (h.ready.root_view ⟨hv, hroot⟩).2.1

theorem Inv.fits (h : Inv s) (hv : v ∈ s.vol.vnodes) (hc : c.refusal (s.vol.core v).type = none) : c.Fits (s.vol.ino v) := by
  have htyped := h.typed hv
  cases c <;> simp only [Call.refusal, Call.Fits] at hc ⊢ <;> split at hc <;> simp_all

theorem begin_steps (h : Inv s) (hx : s.place t = .idle r) (c : Call) : Steps (begin t c s) := by
  have hf := h.facts t
  rw [hx] at hf
  unfold begin
  cases htarget : c.target with
  | none =>
    have hsecond : c.second = none := by
      cases c <;> simp_all [Call.target, Call.second]
    exact h.move (t := t) (x := .entering c) rfl rfl rfl rfl (fun _ _ => rfl)
      ⟨htarget ▸ hf.1, hsecond ▸ hf.2, fun v hv => by simp [htarget] at hv⟩
  | some v =>
    dsimp only
    split
    · exact rfl
    · next hheld =>
      have hpos := Nat.pos_of_ne_zero hheld
      have hin := h.refs.outside v hpos
      simp only [vnodeCheck_ok h (h.listed_live hin)]
      cases hrefusal : c.refusal (s.vol.core v).type with
      | some e => exact h.move (t := t) (x := .idle (.error e)) rfl rfl rfl rfl (fun _ _ => rfl) hf
      | none =>
        have hfits := h.fits hin hrefusal
        have hrefs := h.refs.grab hpos hf.1
        have hsecond : update s.hand (t, false) (some v) (t, true) = none := (hand_other (by decide) _).trans hf.2
        dsimp only
        cases hc : c.second with
        | none =>
          refine h.next (t := t) (x := .entering c) ⟨fun u hu b => hand_apart hu false b _, fun _ _ => rfl, fun _ _ => rfl,
            fun _ _ _ _ _ => rfl⟩ rfl h.ready h.laid hrefs h.listed ⟨?_, ?_, ?_⟩
          · rw [htarget]
            exact update_self ..
          · rw [hc]
            exact hsecond
          · intro w hw
            rw [htarget] at hw
            cases hw
            exact hfits
        | some f =>
          dsimp only
          split
          · exact rfl
          · next hf' =>
            refine h.next (t := t) (x := .entering c) ⟨fun u hu b => (hand_apart (s := s.grab (t, false) v) hu true b _).trans
              (hand_apart hu false b _), fun _ _ => rfl, fun _ _ => rfl, fun _ _ _ _ _ => rfl⟩ rfl h.ready h.laid
              (hrefs.grab (Nat.pos_of_ne_zero hf') hsecond) h.listed ⟨?_, ?_, ?_⟩
            · rw [htarget]
              exact (hand_other (s := s.grab (t, false) v) (by decide) _).trans (update_self ..)
            · rw [hc]
              exact update_self ..
            · intro w hw
              rw [htarget] at hw
              cases hw
              exact hfits

/-! A call goes on. -/

theorem entering_steps (h : Inv s) (hx : s.place t = .entering c) (mem : Memory) : Steps (advance t mem s) := by
  have hf := h.facts t
  rw [hx] at hf
  simp only [advance, hx]
  cases hrun : acquire t s with
  | error e => exact acquire_error hrun
  | ok s₁ =>
    obtain ⟨heq, hnest, hother⟩ := acquire_ok hrun
    rw [heq] at hnest hother ⊢
    exact h.move (t := t) (x := .working c) rfl rfl rfl rfl hother ⟨by rw [nest_goto, hnest]; exact Nat.succ_pos _, hf⟩

/-- The reference that an operation has taken is the thread's. -/
theorem Inv.takes (h : Inv s) {vol : Volume} {g : Option ℕ} (ht : Takes s.vol vol g) (hfree : g ≠ none → s.hand (t, true) = none) :
    Balanced vol.vnodes vol.vnode vol.nextVnode s.held (match g with
      | none => s.hand
      | some g => update s.hand (t, true) (some g)) ∧ ∀ v, (vol.vnode v).live = true → v ∈ vol.vnodes := by
  cases ht with
  | nothing hvnodes hvnode hnext =>
    rw [hvnodes, hvnode, hnext]
    exact ⟨h.refs, h.listed⟩
  | found v hv hvnodes hvnode hnext =>
    rw [hvnodes, hvnode, hnext]
    refine ⟨h.refs.take hv (hfree (by simp)), fun w hw => h.listed w ?_⟩
    by_cases hwv : w = v
    · subst hwv
      rwa [update_self] at hw
    · rwa [update_of_ne hwv] at hw
  | made i hi hvnodes hvnode hnext =>
    rw [hvnodes, hvnode, hnext]
    refine ⟨h.refs.create hi (hfree (by simp)), fun w hw => ?_⟩
    by_cases hwn : w = s.vol.nextVnode
    · simp [hwn]
    · rw [update_of_ne hwn] at hw
      exact List.mem_append_left _ (h.listed w hw)

theorem Inv.valid (h : Inv s) (hx : s.place t = .working c) : Valid c s.vol := by
  have hf := h.facts t
  rw [hx] at hf
  obtain ⟨-, htarget, hsecond, hfits⟩ := hf
  exact ⟨fun v hv => ⟨h.inTable (htarget.trans hv), hfits v hv⟩, fun f hf => h.inTable (hsecond.trans hf)⟩

theorem Inv.worked (h : Inv s) (hx : s.place t = .working c) (hd : Does c s.vol o vol) : Inv (work t o vol s) := by
  have hf := h.facts t
  rw [hx] at hf
  obtain ⟨hnest, -, hsecond, -⟩ := hf
  have hfree : o.vnode ≠ none → s.hand (t, true) = none := by
    intro ho
    rw [hsecond]
    by_contra hc
    exact ho (hd.second hc)
  obtain ⟨hrefs, hlisted⟩ := h.takes hd.under.takes hfree
  have hhand : ∀ u, u ≠ t → ∀ b, (work t o vol s).hand (u, b) = s.hand (u, b) := by
    intro u hu b
    show (match o.vnode with | none => s.hand | some g => update s.hand (t, true) (some g)) (u, b) = _
    cases o.vnode with
    | none => rfl
    | some g => exact hand_apart hu true b _
  refine h.next (t := t) ⟨hhand, fun _ _ => rfl, fun v hv => (hd.under.old v hv).2, ?_⟩ rfl hd.under.ready
    (h.laid.congr hd.under.spares.fixed.nbits hd.under.spares.fixed.nblocks) hrefs hlisted ?_
  · intro u hu d back hxu
    exact absurd hxu (h.quiet hnest hu)
  · cases hdrop : o.drop with
    | none => exact hnest
    | some d =>
      have hvnode : o.vnode = some d := by simp [Outcome.vnode, hdrop]
      refine ⟨hnest, ?_⟩
      show (match o.vnode with | none => s.hand | some g => update s.hand (t, true) (some g)) (t, true) = _
      rw [hvnode]
      exact update_self ..

theorem working_steps (h : Inv s) (hx : s.place t = .working c) (mem : Memory) : Steps (advance t mem s) := by
  obtain ⟨o, vol, hrun, hd⟩ := body_does h.ready h.laid (h.valid hx) mem
  simp only [advance, hx, hrun]
  exact h.worked hx hd

theorem dropping_steps (h : Inv s) (hx : s.place t = .dropping d r) (mem : Memory) : Steps (advance t mem s) := by
  have hf := h.facts t
  rw [hx] at hf
  obtain ⟨hnest, hhand⟩ := hf
  have hlive := h.refs.inHand _ d hhand
  simp only [advance, hx, vnodeDecref, vnodeCheck_ok h hlive]
  by_cases hmany : 1 < (s.vol.vnode d).refcount
  · simp only [if_pos hmany]
    exact h.recounted (t := t) (x := .leaving r) rfl rfl (fun u hu b => hand_apart hu true b _) (fun _ _ => rfl)
      (fun u hu _ => h.quiet hnest hu) (h.refs.dropHand hhand hmany) hnest
  · simp only [if_neg hmany]
    exact h.move (t := t) (x := .reclaiming d (some r)) rfl rfl rfl rfl (fun _ _ => rfl)
      ⟨hhand, by simp, fun _ => hnest⟩

theorem reclaiming_steps (h : Inv s) (hx : s.place t = .reclaiming d back) (mem : Memory) : Steps (advance t mem s) := by
  have hf := h.facts t
  rw [hx] at hf
  obtain ⟨hhand, hnone, hsome⟩ := hf
  simp only [advance, hx, vnodeCheck_ok h (h.refs.inHand _ d hhand)]
  cases hrun : acquire t s with
  | error e => exact acquire_error hrun
  | ok s₁ =>
    obtain ⟨heq, hnest, hother⟩ := acquire_ok hrun
    rw [heq] at hnest hother ⊢
    refine h.move (t := t) (x := .checking d back) rfl rfl rfl rfl hother ⟨hhand, hnone, ?_, fun hback => ?_⟩
    · rw [nest_goto, hnest]
      exact Nat.succ_pos _
    · rw [nest_goto, hnest]
      exact Nat.succ_lt_succ (hsome hback)

/-- Where a thread goes on once it has given the vnode back. -/
theorem resume_facts (hnone : s.hand (t, true) = none) (hidle : back = none → s.hand (t, false) = none)
    (hback : back ≠ none → 0 < nest s t) : Facts (resume t back s) t (resumed back) := by
  cases back with
  | none => exact ⟨hidle rfl, hnone⟩
  | some r => exact hback (by simp)

theorem checking_steps (h : Inv s) (hx : s.place t = .checking d back) (mem : Memory) : Steps (advance t mem s) := by
  have hf := h.facts t
  rw [hx] at hf
  obtain ⟨hhand, hnone, hnest, hsome⟩ := hf
  have hlive := h.refs.inHand _ d hhand
  have hpos := h.refs.pos hlive
  simp only [advance, hx, hlive, Bool.true_eq_false, if_false]
  split
  · next hone => exact h.move (t := t) (x := .erasing d back) rfl rfl rfl rfl (fun _ _ => rfl) ⟨hhand, hnone, hnest, hsome, hone⟩
  · next hmany =>
    rw [if_neg (Nat.ne_of_gt hpos)]
    generalize hs₁ : ({ s with hand := update s.hand (t, true) none }.setVol
      (recount d ((s.vol.vnode d).refcount - 1) s.vol) : State T) = s₁
    have hnest₁ : ∀ u, nest s₁ u = nest s u := by
      subst hs₁
      exact fun _ => rfl
    obtain ⟨s₂, hrun, heq, hself, hother⟩ := release_ok (s := s₁) (t := t) (by rw [hnest₁]; exact hnest)
    rw [hrun, heq]
    rw [heq] at hself hother
    subst hs₁
    refine h.recounted (t := t) rfl rfl (fun u hu b => hand_apart hu true b _) (fun u hu => (hother u hu).trans (hnest₁ u))
      (fun u hu _ => h.quiet hnest hu) (h.refs.dropHand hhand (by omega)) (resume_facts (update_self ..) ?_ ?_)
    · exact fun hback => (hand_other (by decide) _).trans (hnone hback)
    · intro hback
      rw [hself, hnest₁]
      exact Nat.sub_pos_of_lt (hsome hback)

theorem erasing_steps (h : Inv s) (hx : s.place t = .erasing d back) (mem : Memory) : Steps (advance t mem s) := by
  have hf := h.facts t
  rw [hx] at hf
  obtain ⟨hhand, hnone, hnest, hsome, hone⟩ := hf
  have hin := h.inTable hhand
  obtain ⟨vol, herase, he⟩ := sfsErase_erases h.ready hin hone
  simp only [advance, hx, herase]
  generalize hs₁ : ({ s with hand := update s.hand (t, true) none }.setVol vol : State T) = s₁
  have hnest₁ : ∀ u, nest s₁ u = nest s u := by
    subst hs₁
    exact fun _ => rfl
  obtain ⟨s₂, hrun, heq, hself, hother⟩ := release_ok (s := s₁) (t := t) (by rw [hnest₁]; exact hnest)
  rw [hrun, heq]
  rw [heq] at hself hother
  subst hs₁
  have hnumber : ∀ v, vol.ino v = s.vol.ino v := by
    intro v
    show (vol.vnode v).number = (s.vol.vnode v).number
    rw [he.vnode]
    by_cases hv : v = d
    · rw [hv, update_self]
    · rw [update_of_ne hv]
  have hrefs : Balanced vol.vnodes vol.vnode vol.nextVnode s.held (update s.hand (t, true) none) := by
    rw [he.vnodes, he.vnode, he.nextVnode]
    refine (h.refs.remove hhand (by omega)).free ?_ hhand (h.refs.alone hhand (by omega)).2.2
    rw [h.refs.nodup.mem_erase_iff]
    exact fun hmem => hmem.1 rfl
  refine h.next (t := t) ⟨fun u hu b => hand_apart hu true b _, fun u hu => (hother u hu).trans (hnest₁ u), fun v _ => hnumber v, ?_⟩
    rfl he.ready (h.laid.congr he.fixed.nbits he.fixed.nblocks) hrefs ?_ (resume_facts (update_self ..) ?_ ?_)
  · exact fun u hu e back' hxu => absurd hxu (h.quiet hnest hu)
  · intro v hv
    have hv' : (vol.vnode v).live = true := hv
    show v ∈ vol.vnodes
    rw [he.vnode] at hv'
    have hne : v ≠ d := by
      rintro rfl
      simp at hv'
    rw [update_of_ne hne] at hv'
    rw [he.vnodes]
    exact (List.mem_erase_of_ne hne).mpr (h.listed v hv')
  · exact fun hback => (hand_other (by decide) _).trans (hnone hback)
  · intro hback
    rw [hself, hnest₁]
    exact Nat.sub_pos_of_lt (hsome hback)

theorem give_eq (y : T × Bool) (s : State T) : (s.give y).hand = update s.hand y none ∧
    (s.give y) = { s with held := (s.give y).held, hand := (s.give y).hand } := by
  cases hy : s.hand y with
  | none =>
    have hsame : s.give y = s := by simp only [State.give, hy]
    exact ⟨by rw [hsame, ← hy, update_eq_self], by rw [hsame]⟩
  | some v => simp [State.give, hy]

theorem give_refs {y : T × Bool} (hlisted : ∀ v, (s.vol.vnode v).live = true → v ∈ s.vol.vnodes)
    (h : Balanced s.vol.vnodes s.vol.vnode s.vol.nextVnode s.held s.hand) :
    Balanced s.vol.vnodes s.vol.vnode s.vol.nextVnode (s.give y).held (s.give y).hand := by
  unfold State.give
  cases hy : s.hand y with
  | none => exact h
  | some v => exact h.give (hlisted v (h.inHand y v hy)) hy

theorem leaving_steps (h : Inv s) (hx : s.place t = .leaving r) (mem : Memory) : Steps (advance t mem s) := by
  have hf := h.facts t
  rw [hx] at hf
  simp only [advance, hx]
  obtain ⟨s₁, hrun, heq, -, hother⟩ := release_ok hf
  rw [hrun]
  show Inv (((s₁.give (t, false)).give (t, true)).goto t (.idle r))
  obtain ⟨hhand₂, heq₂⟩ := give_eq (t, false) s₁
  obtain ⟨hhand₃, heq₃⟩ := give_eq (t, true) (s₁.give (t, false))
  have hvol₁ : s₁.vol = s.vol := by rw [heq]
  have hheld₁ : s₁.held = s.held ∧ s₁.hand = s.hand := by rw [heq]; exact ⟨rfl, rfl⟩
  have hvol₂ : (s₁.give (t, false)).vol = s.vol := by rw [heq₂]; exact hvol₁
  have hvol₃ : ((s₁.give (t, false)).give (t, true)).vol = s.vol := by rw [heq₃]; exact hvol₂
  have hrefs₁ : Balanced s₁.vol.vnodes s₁.vol.vnode s₁.vol.nextVnode s₁.held s₁.hand := by
    rw [hvol₁, hheld₁.1, hheld₁.2]
    exact h.refs
  have hrefs₂ := give_refs (y := (t, false)) (by rw [hvol₁]; exact h.listed) hrefs₁
  have hrefs₃ := give_refs (s := s₁.give (t, false)) (y := (t, true)) (by rw [hvol₂]; exact h.listed)
    (by rw [hvol₂, ← hvol₁]; exact hrefs₂)
  have hplace : ((s₁.give (t, false)).give (t, true)).place = s.place := by rw [heq₃, heq₂, heq]
  have hhand : ((s₁.give (t, false)).give (t, true)).hand = update (update s.hand (t, false) none) (t, true) none := by
    rw [hhand₃, hhand₂, hheld₁.2]
  have hlock : ∀ u, nest (((s₁.give (t, false)).give (t, true)).goto t (.idle r)) u = nest s₁ u := by
    intro u
    rw [heq₃, heq₂]
    rfl
  refine h.next (t := t) (x := .idle r) ⟨?_, fun u hu => (hlock u).trans (hother u hu), ?_, ?_⟩ ?_ ?_ ?_ ?_ ?_ ?_
  · intro u hu b
    show ((s₁.give (t, false)).give (t, true)).hand (u, b) = _
    rw [hhand, update_of_ne, update_of_ne] <;> exact fun heq => hu (congrArg Prod.fst heq)
  · intro v _
    show ((s₁.give (t, false)).give (t, true)).vol.ino v = _
    rw [hvol₃]
  · intro u hu e back' _
    show (((s₁.give (t, false)).give (t, true)).vol.vnode e).refcount = _
    rw [hvol₃]
  · show update ((s₁.give (t, false)).give (t, true)).place t (.idle r) = _
    rw [hplace]
  · show Ready ((s₁.give (t, false)).give (t, true)).vol
    rw [hvol₃]
    exact h.ready
  · show Laid ((s₁.give (t, false)).give (t, true)).vol
    rw [hvol₃]
    exact h.laid
  · show Balanced ((s₁.give (t, false)).give (t, true)).vol.vnodes ((s₁.give (t, false)).give (t, true)).vol.vnode
      ((s₁.give (t, false)).give (t, true)).vol.nextVnode _ _
    rw [hvol₃, ← hvol₂]
    exact hrefs₃
  · show ∀ v, (((s₁.give (t, false)).give (t, true)).vol.vnode v).live = true → v ∈ ((s₁.give (t, false)).give (t, true)).vol.vnodes
    rw [hvol₃]
    exact h.listed
  · constructor
    · show ((s₁.give (t, false)).give (t, true)).hand (t, false) = none
      rw [hhand, update_of_ne (by simp), update_self]
    · show ((s₁.give (t, false)).give (t, true)).hand (t, true) = none
      rw [hhand, update_self]

theorem advance_steps (h : Inv s) (t : T) (mem : Memory) : Steps (advance t mem s) := by
  cases hx : s.place t with
  | idle r =>
    simp only [advance, hx]
    exact rfl
  | entering c => exact entering_steps h hx mem
  | working c => exact working_steps h hx mem
  | dropping d r => exact dropping_steps h hx mem
  | reclaiming d back => exact reclaiming_steps h hx mem
  | checking d back => exact checking_steps h hx mem
  | erasing d back => exact erasing_steps h hx mem
  | leaving r => exact leaving_steps h hx mem

theorem whenIdle_steps {next : Except Stop (State T)} (h : ∀ r, s.place t = .idle r → Steps next) : Steps (whenIdle t s next) := by
  unfold whenIdle
  split
  · next r hx => exact h r hx
  · exact rfl

theorem step_steps (a : T × Action) (s : State T) (h : Inv s) : Steps (step a s) := by
  obtain ⟨t, act⟩ := a
  cases act with
  | advance mem => exact advance_steps h t mem
  | call c => exact whenIdle_steps fun r hx => begin_steps h hx c
  | incref v => exact whenIdle_steps fun r hx => callerIncref_steps h hx v
  | decref v => exact whenIdle_steps fun r hx => callerDecref_steps h hx v
  | acquire => exact whenIdle_steps fun r hx => acquire_steps h hx
  | release => exact whenIdle_steps fun r hx => release_steps h hx

theorem mounted_inv (hready : Ready vol) (hlaid : Laid vol) (hempty : vol.vnodes = []) (hdead : ∀ v, (vol.vnode v).live = false) :
    Inv (mounted (T := T) vol) := by
  refine ⟨hready, hlaid, ?_, ?_, fun t => ⟨rfl, rfl⟩⟩
  · refine ⟨?_, ?_, ?_, ?_, ?_, ?_, ?_⟩ <;> simp [mounted, hempty, hdead]
  · intro v hv
    exact absurd ((hdead v).symm.trans hv) (by decide)

end OS161.SfsThreads
