import OS161.SfsMount
import OS161.SfsRuns

/-!
# Histories of a volume

A run shows the calls that threads make, the answers the calls are given while they
have the lock, and what they return. The answers, in the order in which they are
given, are those of one finite map; what a step does beyond them nobody sees.
-/

set_option autoImplicit false

namespace OS161.SfsThreads

open Function OS161.Vfs OS161.CopyInOut OS161.Sfs OS161.SfsIo OS161.SfsDir OS161.SfsVolume OS161.References OS161.Runs
open OS161.Sfsck (SFS_ROOTDIR_INO Dinode)

/-- An answer has the request and the reply, and the result that the caller is to get. -/
inductive Event where
  | called (c : Call)
  | refused (c : Call) (e : Errno)
  | answered (c : Call) (q : Request) (p : Reply) (r : Result)
  | returned (r : Result)

/-- What a call still waits for. -/
inductive Turn where
  | free
  | asked (c : Call)
  | told (r : Result)

/-- A call is refused at once, or it is answered, and the answer is what it returns. -/
inductive Follows : Turn → List Event → Turn → Prop where
  | nothing {x} : Follows x [] x
  | called {c} : Follows .free [.called c] (.asked c)
  | refused {c e} : Follows .free [.refused c e] .free
  | answered {c q p r} : Follows (.asked c) [.answered c q p r] (.told r)
  | returned {r} : Follows (.told r) [.returned r] .free

inductive Turns : List Event → Turn → Prop where
  | start : Turns [] .free
  | next {l es x y} (h : Turns l x) (hnext : Follows x es y) : Turns (l ++ es) y

/-- Answers in their order, by a map that changes with each. -/
inductive Legal : List (Request × Reply) → (Name → Option ℕ) → (Name → Option ℕ) → Prop where
  | start {m} : Legal [] m m
  | next {l q p m m' m''} (h : Legal l m m') (hnext : Answers q m' p m'') : Legal (l ++ [(q, p)]) m m''

def Place.turn : Place → Turn
  | .idle _ => .free
  | .entering c | .working c => .asked c
  | .dropping _ r | .leaving r => .told r
  | .reclaiming _ back | .checking _ back | .erasing _ back =>
    match back with
    | none => .free
    | some r => .told r

variable {T : Type} [DecidableEq T]

def events (a : T × Action) (s : State T) : List Event :=
  match a.2 with
  | .call c =>
    match c.target.bind fun v => c.refusal (s.vol.core v).type with
    | none => [.called c]
    | some e => [.refused c e]
  | .advance mem =>
    match s.place a.1 with
    | .working c =>
      match c.body mem s.vol with
      | .error _ => []
      | .ok (o, vol) => [.answered c (c.request s.vol) (reply o vol) o.result]
    | .leaving r => [.returned r]
    | _ => []
  | _ => []

def note (a : T × Action) (s : State T) (l : List (T × Event)) : List (T × Event) := l ++ (events a s).map fun e => (a.1, e)

def history (as : List (T × Action)) (s : State T) : List (T × Event) := track step note as s []

def answer : Event → Option (Request × Reply)
  | .answered _ q p _ => some (q, p)
  | _ => none

def answers (l : List (T × Event)) : List (Request × Reply) := l.filterMap fun e => answer e.2

/-- What a thread sees of a history. -/
def own (t : T) (l : List (T × Event)) : List Event := (l.filter fun e => e.1 = t).map Prod.snd

variable {s s' : State T} {t u : T} {x y : Place} {c : Call} {o : Outcome} {mem : Memory} {v n j : ℕ} {a : T × Action}
  {vol vol' : Volume} {r : Result}

/-- The volume is the same but for the counts of its vnodes. -/
structure Recounted (vol vol' : Volume) : Prop where
  dir : dir vol' = dir vol
  present : ∀ i, Present vol' i ↔ Present vol i
  inode : ∀ i, inodeOf vol' i = inodeOf vol i
  file : ∀ i, fileOf vol' i = fileOf vol i
  fixed : Fixed vol vol'

theorem Recounted.refl (vol : Volume) : Recounted vol vol := ⟨rfl, fun _ => Iff.rfl, fun _ => rfl, fun _ => rfl, .refl vol⟩

theorem Recounted.of_vnode (h : vol' = { vol with vnode := vol'.vnode }) (hino : ∀ w, vol'.ino w = vol.ino w) :
    Recounted vol vol' := by
  have hinode : ∀ i, inodeOf vol' i = inodeOf vol i := by
    intro i
    unfold inodeOf
    simp only [hino]
    rw [h]
  have hfile : ∀ i, fileOf vol' i = fileOf vol i := by
    intro i
    unfold fileOf
    rw [hinode, h]
    rfl
  have hdir : SfsVolume.dir vol' = SfsVolume.dir vol := congrArg entries (hfile _)
  refine ⟨hdir, fun i => present_congr hdir (fun k => ?_) i, hinode, hfile, ?_⟩
  · unfold Loaded
    simp only [hino]
    rw [h]
  · rw [h]
    exact .same rfl rfl rfl rfl rfl rfl

theorem recount_recounted (v n : ℕ) (vol : Volume) : Recounted vol (recount v n vol) := .of_vnode rfl fun w => recount_ino v n w vol

theorem incref_recounted (v : ℕ) (vol : Volume) : Recounted vol (vopIncref v vol) :=
  recount_recounted v ((vol.vnode v).refcount + 1) vol

/-- What the step of a thread does to the volume. -/
inductive Moved (a : T × Action) (s s' : State T) : Prop where
  | recounted (hsilent : (events a s).filterMap answer = []) (h : Recounted s.vol s'.vol)
  | worked (c : Call) (o : Outcome) (hplace : s.place a.1 = .working c)
      (hevents : events a s = [.answered c (c.request s.vol) (reply o s'.vol) o.result]) (h : Does c s.vol o s'.vol)
  | erased (d : ℕ) (hsilent : (events a s).filterMap answer = []) (hd : d ∈ s.vol.vnodes) (h : Erased d s.vol s'.vol)

/-- The thread goes on, and the others stay where they are. -/
structure Went (a : T × Action) (s s' : State T) : Prop where
  place : ∃ x, s'.place = update s.place a.1 x ∧ Follows (s.place a.1).turn (events a s) x.turn
  moved : Moved a s s'

theorem Went.stays (hplace : s'.place = s.place) (hevents : events a s = []) (h : Recounted s.vol s'.vol) : Went a s s' := by
  refine ⟨⟨s.place a.1, by rw [hplace, update_eq_self], ?_⟩, .recounted (by rw [hevents]; rfl) h⟩
  rw [hevents]
  exact .nothing

theorem Went.goes (hplace : s'.place = update s.place a.1 x) (hevents : events a s = []) (hturn : x.turn = (s.place a.1).turn)
    (h : Recounted s.vol s'.vol) : Went a s s' := by
  refine ⟨⟨x, hplace, ?_⟩, .recounted (by rw [hevents]; rfl) h⟩
  rw [hevents, hturn]
  exact .nothing

/-! Each step. -/

omit [DecidableEq T] in
theorem whenIdle_ok {next : Except Stop (State T)} (h : whenIdle t s next = .ok s') : (∃ r, s.place t = .idle r) ∧ next = .ok s' := by
  unfold whenIdle at h
  split at h
  · next r hx => exact ⟨⟨r, hx⟩, h⟩
  · cases h

theorem incref_went (h : callerIncref v s = .ok s') (hevents : events a s = []) : Went a s s' := by
  unfold callerIncref at h
  split at h
  · cases h
  · cases h
    exact .stays rfl hevents (incref_recounted v s.vol)

theorem decref_went (h : callerDecref a.1 v s = .ok s') (hx : s.place a.1 = .idle r) (hevents : events a s = []) : Went a s s' := by
  unfold callerDecref vnodeDecref at h
  split at h
  · cases h
  · split at h
    · cases h
    · next hd =>
      cases h
      exact .goes (x := .reclaiming v none) rfl hevents (by rw [hx]; rfl) (.refl _)
    · next hd =>
      split at hd
      · cases hd
      · split at hd
        · cases hd
          cases h
          exact .stays rfl hevents (recount_recounted v _ s.vol)
        · cases hd

omit [DecidableEq T] in
theorem map_ok {f : State T → State T} {p : Except Stop (State T)} (h : p.map f = .ok s') : ∃ s₁, p = .ok s₁ ∧ s' = f s₁ := by
  cases p with
  | error e => cases h
  | ok s₁ =>
    cases h
    exact ⟨s₁, rfl, rfl⟩

theorem release_same (h : release t s = .ok s') : s' = { s with holder := s'.holder, depth := s'.depth } := by
  unfold release at h
  split at h
  · cases h
  · split at h <;> cases h <;> rfl

theorem acquire_went (h : acquire a.1 s = .ok s') (hevents : events a s = []) : Went a s s' := by
  obtain ⟨heq, -⟩ := acquire_ok h
  refine .stays ?_ hevents ?_
  · rw [heq]
  · rw [heq]
    exact .refl _

theorem release_went (h : release a.1 s = .ok s') (hevents : events a s = []) : Went a s s' := by
  have heq := release_same h
  refine .stays ?_ hevents ?_
  · rw [heq]
  · rw [heq]
    exact .refl _

theorem begin_went (h : begin a.1 c s = .ok s') (hx : s.place a.1 = .idle r) (hc : a.2 = .call c) : Went a s s' := by
  have hidle : (s.place a.1).turn = .free := by rw [hx]; rfl
  unfold begin at h
  have hgoes : ∀ x es, s'.place = update s.place a.1 x → events a s = es → Follows .free es x.turn → s'.vol = s.vol →
      Went a s s' := by
    intro x es hplace hevents hfollows hvol
    refine ⟨⟨x, hplace, ?_⟩, .recounted ?_ ?_⟩
    · rw [hidle, hevents]
      exact hfollows
    · rw [hevents]
      generalize x.turn = y at hfollows
      cases hfollows <;> rfl
    · rw [hvol]
      exact .refl _
  cases htarget : c.target with
  | none =>
    rw [htarget] at h
    cases h
    refine hgoes (.entering c) [.called c] rfl ?_ .called rfl
    simp [events, hc, htarget]
  | some v =>
    rw [htarget] at h
    dsimp only at h
    split at h
    · cases h
    · split at h
      · cases h
      · cases hrefusal : c.refusal (s.vol.core v).type with
        | some e =>
          rw [hrefusal] at h
          cases h
          refine hgoes (.idle (.error e)) [.refused c e] rfl ?_ .refused rfl
          simp [events, hc, htarget, hrefusal]
        | none =>
          have hevents : events a s = [.called c] := by simp [events, hc, htarget, hrefusal]
          rw [hrefusal] at h
          dsimp only at h
          split at h
          · cases h
            exact hgoes (.entering c) [.called c] rfl hevents .called rfl
          · split at h
            · cases h
            · cases h
              exact hgoes (.entering c) [.called c] rfl hevents .called rfl

theorem resumed_turn (back : Option Result) (d : ℕ) : (resumed back).turn = (Place.erasing d back).turn := by
  cases back <;> rfl

theorem advance_went (h : Inv s) (hs : advance a.1 mem s = .ok s') (ha : a.2 = .advance mem) : Went a s s' := by
  have hsilent : (∀ c, s.place a.1 ≠ .working c) → (∀ r, s.place a.1 ≠ .leaving r) → events a s = [] := by
    intro hw hl
    simp only [events, ha]
  cases hx : s.place a.1 with
  | idle r =>
    simp only [advance, hx] at hs
    cases hs
  | entering c =>
    simp only [advance, hx] at hs
    cases hrun : acquire a.1 s with
    | error e =>
      rw [hrun] at hs
      cases hs
    | ok s₁ =>
      rw [hrun] at hs
      cases hs
      obtain ⟨heq, -⟩ := acquire_ok hrun
      refine .goes (x := .working c) ?_ (hsilent (by simp [hx]) (by simp [hx])) (by rw [hx]; rfl) ?_
      · rw [heq]
        rfl
      · rw [heq]
        exact .refl _
  | working c =>
    obtain ⟨o, vol, hrun, hd⟩ := body_does h.ready h.laid (h.valid hx) mem
    simp only [advance, hx, hrun] at hs
    cases hs
    have hevents : events a s = [.answered c (c.request s.vol) (reply o vol) o.result] := by
      simp only [events, ha, hx, hrun]
    refine ⟨⟨_, rfl, ?_⟩, .worked c o hx hevents hd⟩
    rw [hevents, hx]
    cases hdrop : o.drop <;> exact .answered
  | dropping d r =>
    have hf := h.facts a.1
    rw [hx] at hf
    simp only [advance, hx, vnodeDecref, vnodeCheck_ok h (h.refs.inHand _ d hf.2)] at hs
    have hevents := hsilent (by simp [hx]) (by simp [hx])
    by_cases hmany : 1 < (s.vol.vnode d).refcount
    · simp only [if_pos hmany] at hs
      cases hs
      exact .goes (x := .leaving r) rfl hevents (by rw [hx]; rfl) (recount_recounted d _ s.vol)
    · simp only [if_neg hmany] at hs
      cases hs
      exact .goes (x := .reclaiming d (some r)) rfl hevents (by rw [hx]; rfl) (.refl _)
  | reclaiming d back =>
    have hf := h.facts a.1
    rw [hx] at hf
    simp only [advance, hx, vnodeCheck_ok h (h.refs.inHand _ d hf.1)] at hs
    cases hrun : acquire a.1 s with
    | error e =>
      rw [hrun] at hs
      cases hs
    | ok s₁ =>
      rw [hrun] at hs
      cases hs
      obtain ⟨heq, -⟩ := acquire_ok hrun
      refine .goes (x := .checking d back) ?_ (hsilent (by simp [hx]) (by simp [hx])) (by rw [hx]; rfl) ?_
      · rw [heq]
        rfl
      · rw [heq]
        exact .refl _
  | checking d back =>
    have hevents := hsilent (by simp [hx]) (by simp [hx])
    simp only [advance, hx] at hs
    split at hs
    · cases hs
    · split at hs
      · cases hs
        exact .goes (x := .erasing d back) rfl hevents (by rw [hx]; rfl) (.refl _)
      · split at hs
        · cases hs
        · obtain ⟨s₁, hrun, rfl⟩ := map_ok hs
          have heq := release_same hrun
          refine .goes (x := resumed back) ?_ hevents (by rw [hx]; exact resumed_turn back d) ?_
          · rw [heq]
            rfl
          · rw [heq]
            exact recount_recounted d _ s.vol
  | erasing d back =>
    have hf := h.facts a.1
    rw [hx] at hf
    have hd := h.inTable hf.1
    obtain ⟨vol, herase, he⟩ := sfsErase_erases h.ready hd hf.2.2.2.2
    simp only [advance, hx, herase] at hs
    obtain ⟨s₁, hrun, rfl⟩ := map_ok hs
    have heq := release_same hrun
    have hevents := hsilent (by simp [hx]) (by simp [hx])
    refine ⟨⟨resumed back, ?_, ?_⟩, .erased d (by rw [hevents]; rfl) hd ?_⟩
    · rw [heq]
      rfl
    · rw [hevents, resumed_turn back d, hx]
      exact .nothing
    · rw [heq]
      exact he
  | leaving r =>
    simp only [advance, hx] at hs
    obtain ⟨s₁, hrun, rfl⟩ := map_ok hs
    have heq := release_same hrun
    have hgive : ∀ (y : T × Bool) (s : State T), (s.give y).place = s.place ∧ (s.give y).vol = s.vol := by
      intro y s
      rw [(give_eq y s).2]
      exact ⟨rfl, rfl⟩
    have hplace : ((s₁.give (a.1, false)).give (a.1, true)).place = s.place := by
      rw [(hgive _ _).1, (hgive _ _).1, heq]
    have hvol : ((s₁.give (a.1, false)).give (a.1, true)).vol = s.vol := by
      rw [(hgive _ _).2, (hgive _ _).2, heq]
    have hevents : events a s = [.returned r] := by simp only [events, ha, hx]
    refine ⟨⟨.idle r, ?_, ?_⟩, .recounted (by rw [hevents]; rfl) ?_⟩
    · rw [← hplace]
      rfl
    · rw [hevents, hx]
      exact .returned
    · show Recounted s.vol ((s₁.give (a.1, false)).give (a.1, true)).vol
      rw [hvol]
      exact .refl _

theorem step_went (h : Inv s) (hs : step a s = .ok s') : Went a s s' := by
  obtain ⟨t, act⟩ := a
  cases act with
  | advance mem => exact advance_went (a := (t, .advance mem)) h hs rfl
  | call c =>
    obtain ⟨⟨r, hx⟩, hrun⟩ := whenIdle_ok hs
    exact begin_went (a := (t, .call c)) hrun hx rfl
  | incref v =>
    obtain ⟨-, hrun⟩ := whenIdle_ok hs
    exact incref_went hrun rfl
  | decref v =>
    obtain ⟨⟨r, hx⟩, hrun⟩ := whenIdle_ok hs
    exact decref_went (a := (t, .decref v)) hrun hx rfl
  | acquire =>
    obtain ⟨-, hrun⟩ := whenIdle_ok hs
    exact acquire_went (a := (t, .acquire)) hrun rfl
  | release =>
    obtain ⟨-, hrun⟩ := whenIdle_ok hs
    split at hrun
    · cases hrun
    · exact release_went (a := (t, .release)) hrun rfl

theorem Inv.steps (h : Inv s) (hs : step a s = .ok s') : Inv s' := by
  have hsteps := step_steps a s h
  rw [hs] at hsteps
  exact hsteps

/-! A small volume, in which a thread makes a file. -/

def goOn : Action := .advance ⟨true, true⟩

theorem letter_whole : (0 : UInt8) ∉ [(97 : UInt8)] := by decide

/-- The thread gets the root, makes a file in it, and gives both back. -/
def making : List (Bool × Action) :=
  [(true, .call .getroot), (true, goOn), (true, goOn), (true, goOn),
    (true, .call (.creat 0 ⟨[97], letter_whole⟩ true)), (true, goOn), (true, goOn), (true, goOn),
    (true, .decref 1), (true, goOn), (true, goOn), (true, goOn),
    (true, .decref 0), (true, goOn), (true, goOn), (true, goOn)]

/-- A volume that has just been made, from the device it is on to what is done after its first mount. -/
def smallSession (next : Volume → Except Stop (Except Errno Device)) : Bool :=
  match Mksfs.main [97] FreshVolume.smallDevice with
  | .error _ => false
  | .ok (_, v) =>
    match sfsDomount ⟨SFS_BLOCKSIZE, 4096, v.disk⟩ ⟨true, true⟩ with
    | .ok (.ok vol) =>
      match next vol with
      | .ok (.ok _) => true
      | _ => false
    | _ => false

theorem smallSession_ok {next : Volume → Except Stop (Except Errno Device)} (h : smallSession next = true) :
    ∃ v vol dev, Mksfs.main [97] (Mksfs.started 4096 fun _ => zeros) = .ok ((), v) ∧
      sfsDomount ⟨SFS_BLOCKSIZE, 4096, v.disk⟩ ⟨true, true⟩ = .ok (.ok vol) ∧ Starts vol ∧ Labelled vol ∧
      next vol = .ok (.ok dev) := by
  unfold smallSession at h
  split at h
  · cases h
  · next v hmade =>
    split at h
    · next vol hmount =>
      split at h
      · next dev hnext =>
        obtain ⟨vol', hmount', hstarts, hlabel, -⟩ := fresh_mounts ((Mksfs.main_makes _ _ (by decide)).ok hmade) (by decide)
          (Nat.le_refl 4096) (by decide)
        rw [hmount] at hmount'
        cases hmount'
        exact ⟨_, vol, dev, hmade, hmount, hstarts, hlabel, hnext⟩
      · cases h
    · cases h

/-- The session of `making`. -/
def makes (vol : Volume) : Except Stop (Except Errno Device) :=
  match runs making (mounted vol) with
  | .error stop => .error stop
  | .ok s =>
    match sfsSync s.vol with
    | .error stop => .error stop
    | .ok s₁ => sfsUnmount s₁

theorem makes_ok : smallSession makes = true := by decide +kernel

theorem making_runs : ∃ v vol s s₁ dev, Mksfs.main [97] (Mksfs.started 4096 fun _ => zeros) = .ok ((), v) ∧
    sfsDomount ⟨SFS_BLOCKSIZE, 4096, v.disk⟩ ⟨true, true⟩ = .ok (.ok vol) ∧ Starts vol ∧ Labelled vol ∧
    runs making (mounted vol) = .ok s ∧ sfsSync s.vol = .ok s₁ ∧ sfsUnmount s₁ = .ok (.ok dev) := by
  obtain ⟨v, vol, dev, hmade, hmount, hstarts, hlabel, hmakes⟩ := smallSession_ok makes_ok
  unfold makes at hmakes
  split at hmakes
  · cases hmakes
  · next s hrun =>
    split at hmakes
    · cases hmakes
    · next s₁ hsync => exact ⟨v, vol, s, s₁, dev, hmade, hmount, hstarts, hlabel, hrun, hsync, hmakes⟩

/-! Runs. -/

variable {l : List (T × Event)}

omit [DecidableEq T] in
theorem Moved.files (h : Moved a s s') : (events a s).filterMap answer = [] ∧ files s'.vol = files s.vol ∨
    ∃ q p, (events a s).filterMap answer = [(q, p)] ∧ Answers q (files s.vol) p (files s'.vol) := by
  cases h with
  | recounted hsilent h => exact .inl ⟨hsilent, files_dir h.dir⟩
  | worked c o hplace hevents h => exact .inr ⟨_, _, by rw [hevents]; rfl, h.answers⟩
  | erased d hsilent hd h => exact .inl ⟨hsilent, h.files⟩

/-- What is true of a history so far. -/
structure Told (vol : Volume) (s : State T) (l : List (T × Event)) : Prop where
  inv : Inv s
  legal : Legal (answers l) (files vol) (files s.vol)
  turns : ∀ t, Turns (own t l) (s.place t).turn

omit [DecidableEq T] in
theorem answers_next (t : T) (l : List (T × Event)) (es : List Event) :
    answers (l ++ es.map fun e => (t, e)) = answers l ++ es.filterMap answer := by
  simp [answers, List.filterMap_append, List.filterMap_map]

theorem own_next (t u : T) (l : List (T × Event)) (es : List Event) :
    own u (l ++ es.map fun e => (t, e)) = own u l ++ if u = t then es else [] := by
  unfold own
  rw [List.filter_append, List.map_append]
  by_cases hu : u = t
  · simp [hu, List.filter_map, Function.comp_def]
  · simp [hu, Ne.symm hu, List.filter_map, Function.comp_def]

theorem Told.next (h : Told vol s l) (hs : step a s = .ok s') : Told vol s' (note a s l) := by
  have hwent := step_went h.inv hs
  refine ⟨h.inv.steps hs, ?_, fun u => ?_⟩
  · rw [note, answers_next]
    obtain ⟨hsilent, hsame⟩ | ⟨q, p, hone, hanswers⟩ := hwent.moved.files
    · rw [hsilent, hsame, List.append_nil]
      exact h.legal
    · rw [hone]
      exact h.legal.next hanswers
  · obtain ⟨x, hplace, hfollows⟩ := hwent.place
    rw [note, own_next, hplace]
    by_cases hu : u = a.1
    · subst hu
      rw [if_pos rfl, update_self]
      exact (h.turns _).next hfollows
    · rw [if_neg hu, List.append_nil, update_of_ne hu]
      exact h.turns u

/-- Every run of a volume is a history of one map: the answers, in their order, are
those of the map, and each call is answered between its start and its return with what it returns. -/
theorem run_answers {as : List (T × Action)} (hstart : Starts vol) (hrun : runs as (mounted vol) = .ok s) :
    Legal (answers (history as (mounted vol))) (files vol) (files s.vol) ∧
      ∀ t, Turns (own t (history as (mounted vol))) (s.place t).turn := by
  have htold : Told vol s (history as (mounted vol)) := by
    have hstep : ∀ (a : T × Action) s s' l, Told vol s l → step a s = .ok s' → Told vol s' (note a s l) := fun a s s' l h hs => h.next hs
    refine track_invariant hstep ?_ hrun
    exact ⟨mounted_inv hstart.ready hstart.laid hstart.empty hstart.dead, .start, fun _ => .start⟩
  exact ⟨htold.legal, htold.turns⟩

theorem making_answers : ∃ vol s, Starts vol ∧ runs making (mounted vol) = .ok s ∧
    Legal (answers (history making (mounted vol))) (files vol) (files s.vol) ∧
      ∀ t, Turns (own t (history making (mounted vol))) (s.place t).turn := by
  obtain ⟨-, vol, s, -, -, -, -, hstarts, -, hrun, -⟩ := making_runs
  exact ⟨vol, s, hstarts, hrun, run_answers hstarts hrun⟩

end OS161.SfsThreads
