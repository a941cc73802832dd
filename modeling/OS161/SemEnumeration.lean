import OS161.SemOutcome
import OS161.Uiomove

/-!
# Reading the directory of semaphores

`semfs_getdirentry` takes the offset of the transfer for the position of an
entry, and leaves it to `uiomove` to move it on, which adds the length of the
name. The entry of a removed semaphore is empty.
-/

set_option autoImplicit false

namespace OS161.SemDirectory

open Function OS161.Vfs OS161.CopyInOut OS161.Runs

section Names

variable {T : Type} [DecidableEq T] {s s' : State T} {t u : T} {next : Except Stop (State T)} {lock : Option T}
  {x : Place} {o k v i : ℕ}

/-- The name for which the thread is going to make an entry. -/
def pending : Place → Option Name
  | .creatInsert name _ _ | .creatInserted name _ _ _ => some name
  | _ => none

/-- What a thread that goes on to `x` can do to the entries. -/
inductive Entries (t : T) (s s' : State T) (x : Place) : Prop where
  | fewer (hx : pending x = none) (hd : ∀ i, s'.dents i = s.dents i ∨ s'.dents i = none)
  | entered (hx : pending x = none) (i : ℕ) (d : Direntry) (ht : pending (s.place t) = some d.name)
      (hd : s'.dents = update s.dents i (some d))
  | looked (name : Name) (hx : pending x = some name) (hd : s'.dents = s.dents)
      (ht : pending (s.place t) = some name ∨ search name s = none)

def Renames (t : T) (s s' : State T) : Prop := ∃ x, s'.place = update s.place t x ∧ Entries t s s' x

def Keeps (s s' : State T) : Prop := s'.dents = s.dents ∧ s'.place = s.place

theorem goto_place {s₁ : State T} (h : s₁.place = s.place) (x : Place) :
    (s₁.goto t x).place = update s.place t x := by
  rw [← h]
  rfl

theorem Keeps.goto {s₁ : State T} (h : Keeps s s₁) (hx : pending x = none) : Renames t s (s₁.goto t x) :=
  ⟨x, goto_place h.2 x, .fewer hx fun i => .inl (congrFun h.1 i)⟩

theorem cleared {s₁ : State T} (hd : s₁.dents = update s.dents i none) (hp : s₁.place = s.place)
    (hx : pending x = none) : Renames t s (s₁.goto t x) := by
  refine ⟨x, goto_place hp x, .fewer hx fun j => ?_⟩
  have hgoto : (s₁.goto t x).dents = update s.dents i none := hd
  rw [hgoto]
  by_cases hj : j = i
  · exact .inr (by rw [hj, update_self])
  · exact .inl (update_of_ne hj ..)

theorem acquire_ok (h : acquire t lock next = .ok s') : next = .ok s' := by
  unfold acquire at h
  split_ifs at h
  exact h

theorem release_ok (h : release t lock next = .ok s') : next = .ok s' := by
  unfold release at h
  split_ifs at h
  exact h

theorem acquireSem_ok (h : acquireSem t o s next = .ok s') : next = .ok s' := by
  unfold acquireSem at h
  split_ifs at h
  exact acquire_ok h

theorem releaseSem_ok (h : releaseSem t o s next = .ok s') : next = .ok s' := by
  unfold releaseSem at h
  split_ifs at h
  exact release_ok h

omit [DecidableEq T] in
theorem destroy_keeps {s₁ : State T} (h : semfsSemDestroy o s₁ = .ok s') (hs : Keeps s s₁) : Keeps s s' := by
  unfold semfsSemDestroy at h
  split_ifs at h
  cases h
  exact hs

omit [DecidableEq T] in
theorem dropSem_keeps {s₁ : State T} (h : dropSem k s₁ = .ok s') (hs : Keeps s s₁) : Keeps s s' := by
  unfold dropSem at h
  split at h
  · cases h
  dsimp only at h
  split_ifs at h
  · cases h
    exact hs
  · exact destroy_keeps h hs

omit [DecidableEq T] in
theorem incref_keeps {s₁ : State T} (h : vnodeIncref v s₁ = .ok s') (hs : Keeps s s₁) : Keeps s s' := by
  unfold vnodeIncref at h
  split_ifs at h
  cases h
  exact hs

omit [DecidableEq T] in
theorem vopIncref_keeps (h : vopIncref v s = .ok s') : Keeps s s' := by
  simp only [vopIncref, withRef] at h
  split_ifs at h
  split at h
  · cases h
  · next s₁ hi =>
    cases h
    have hkeeps : Keeps s s₁ := incref_keeps hi ⟨rfl, rfl⟩
    exact hkeeps

omit [DecidableEq T] in
theorem insert_keeps (o : ℕ) (mem : Memory) (s : State T) : Keeps s (semfsSemInsert o mem s).2 := by
  unfold semfsSemInsert
  repeat' split
  all_goals exact ⟨rfl, rfl⟩

theorem advance_renames {mem : Memory} {wait : Bool} (h : advance t mem wait s = .ok s') : Renames t s s' := by
  unfold advance at h
  cases hp : s.place t <;> simp only [hp] at h
  case idle => cases h
  case creatDir name excl =>
    have hn := acquire_ok h
    dsimp only at hn
    split at hn
    · cases hn
      exact Keeps.goto ⟨rfl, rfl⟩ (by split <;> rfl)
    · next hs =>
      split_ifs at hn
      · cases hn
        exact ⟨_, rfl, .looked name rfl rfl (.inr hs)⟩
      · cases hn
        exact Keeps.goto ⟨rfl, rfl⟩ rfl
  case creatInsert name empty o =>
    have hk := insert_keeps o mem { s with tablelock := some t }
    rw [← Except.ok.inj (acquire_ok h)]
    exact ⟨_, goto_place hk.2 _, .looked name rfl hk.1 (.inl (by rw [hp]; rfl))⟩
  case creatInserted name empty o r =>
    have hn := release_ok h
    dsimp only at hn
    split at hn
    · split at hn
      · cases hn
      · next hd =>
        cases hn
        refine Keeps.goto ?_ rfl
        exact destroy_keeps hd ⟨rfl, rfl⟩
    · split at hn
      · split at hn
        · cases hn
          exact ⟨_, rfl, .entered rfl _ _ (by rw [hp]; rfl) rfl⟩
        · split at hn
          · cases hn
            exact ⟨_, rfl, .entered rfl _ _ (by rw [hp]; rfl) rfl⟩
          · cases hn
            exact Keeps.goto ⟨rfl, rfl⟩ rfl
      · cases hn
        exact Keeps.goto ⟨rfl, rfl⟩ rfl
  case getvnode k c =>
    have hn := acquire_ok h
    dsimp only at hn
    split at hn
    · split at hn
      · cases hn
      · next hi =>
        cases hn
        refine Keeps.goto ?_ rfl
        exact incref_keeps hi ⟨rfl, rfl⟩
    · split_ifs at hn
      · cases hn
        exact Keeps.goto ⟨rfl, rfl⟩ rfl
      · split at hn
        · cases hn
        · split_ifs at hn
          cases hn
          exact Keeps.goto ⟨rfl, rfl⟩ rfl
      · cases hn
        exact Keeps.goto ⟨rfl, rfl⟩ rfl
  case gotvnode k c r =>
    have hn := release_ok h
    dsimp only at hn
    split at hn
    · cases hn
      exact Keeps.goto ⟨rfl, rfl⟩ rfl
    · cases hn
      exact Keeps.goto ⟨rfl, rfl⟩ rfl
    · cases hn
      exact Keeps.goto ⟨rfl, rfl⟩ rfl
    · split_ifs at hn
      cases hn
      exact Keeps.goto ⟨rfl, rfl⟩ rfl
    · cases hn
      exact cleared rfl rfl rfl
  case creatUninsert k o r =>
    cases acquire_ok h
    exact Keeps.goto ⟨rfl, rfl⟩ rfl
  case creatUninserted o r =>
    have hn := release_ok h
    split at hn
    · cases hn
    · next hd =>
      cases hn
      refine Keeps.goto ?_ rfl
      exact destroy_keeps hd ⟨rfl, rfl⟩
  case lookupDir name =>
    have hn := acquire_ok h
    dsimp only at hn
    split at hn <;> cases hn <;> exact Keeps.goto ⟨rfl, rfl⟩ rfl
  case unlockDir r =>
    cases release_ok h
    refine Keeps.goto ?_ rfl
    unfold returned
    split <;> exact ⟨rfl, rfl⟩
  case removeDir name =>
    have hn := acquire_ok h
    dsimp only at hn
    split at hn <;> cases hn <;> exact Keeps.goto ⟨rfl, rfl⟩ rfl
  case removeGet i k =>
    have hn := acquire_ok h
    split at hn <;> cases hn
    exact Keeps.goto ⟨rfl, rfl⟩ rfl
  case removeLock i k o =>
    have hn := acquireSem_ok h
    split_ifs at hn <;> cases hn <;> exact Keeps.goto ⟨rfl, rfl⟩ rfl
  case removeTable i k o =>
    cases acquire_ok h
    exact Keeps.goto ⟨rfl, rfl⟩ rfl
  case removeUnlock i k o destroy =>
    have hn := releaseSem_ok h
    dsimp only at hn
    split at hn
    · cases hn
    · next s₂ hd =>
      cases hn
      have hkeeps : Keeps s s₂ := by
        split_ifs at hd
        · exact destroy_keeps hd ⟨rfl, rfl⟩
        · cases hd
          exact ⟨rfl, rfl⟩
      exact cleared (congrArg (update · i none) hkeeps.1) hkeeps.2 rfl
  case reclaim v =>
    have hn := acquire_ok h
    dsimp only at hn
    split at hn
    · cases hn
    split at hn
    · cases hn
      exact Keeps.goto ⟨rfl, rfl⟩ rfl
    split at hn
    · cases hn
    next hd =>
      cases hn
      refine Keeps.goto ?_ rfl
      split_ifs at hd
      · cases hd
        exact ⟨rfl, rfl⟩
      · exact dropSem_keeps hd ⟨rfl, rfl⟩
  case reclaimed v =>
    have hn := release_ok h
    split_ifs at hn
    cases hn
    exact Keeps.goto ⟨rfl, rfl⟩ rfl
  case useGet v =>
    have hn := acquire_ok h
    split at hn <;> cases hn
    exact Keeps.goto ⟨rfl, rfl⟩ rfl
  case useLock v o =>
    cases acquireSem_ok h
    exact Keeps.goto ⟨rfl, rfl⟩ rfl
  case useUnlock v o =>
    have hn := releaseSem_ok h
    dsimp only at hn
    split_ifs at hn <;> cases hn <;> exact Keeps.goto ⟨rfl, rfl⟩ rfl
  all_goals
    cases release_ok h
    exact Keeps.goto ⟨rfl, rfl⟩ rfl

theorem begin_renames {a : Action} {r : Result} (hp : s.place t = .idle r) (h : begin t a s = .ok s') : Renames t s s' := by
  have hsame : ∀ s₁ : State T, Keeps s s₁ → Renames t s s₁ := by
    intro s₁ hk
    refine ⟨.idle r, by rw [hk.2, ← hp, update_eq_self], .fewer rfl fun i => .inl (congrFun hk.1 i)⟩
  cases a with
  | getroot =>
    cases h
    exact Keeps.goto ⟨rfl, rfl⟩ rfl
  | creat name excl =>
    cases h
    exact Keeps.goto ⟨rfl, rfl⟩ (by split <;> rfl)
  | lookup dirvn path =>
    simp only [begin] at h
    split_ifs at h
    · exact hsame _ (vopIncref_keeps h)
    · cases h
      exact Keeps.goto ⟨rfl, rfl⟩ rfl
  | remove name =>
    cases h
    exact Keeps.goto ⟨rfl, rfl⟩ (by split <;> rfl)
  | incref v => exact hsame _ (vopIncref_keeps h)
  | decref v =>
    simp only [begin, vnodeDecref, withRef] at h
    split_ifs at h <;> cases h
    · exact hsame _ ⟨rfl, rfl⟩
    · exact Keeps.goto ⟨rfl, rfl⟩ rfl
  | use v =>
    simp only [begin, beginUse, withRef] at h
    split_ifs at h
    cases h
    exact Keeps.goto ⟨rfl, rfl⟩ rfl
  | advance mem wait => cases h

theorem step_renames {a : T × Action} (h : step a s = .ok s') : Renames a.1 s s' := by
  obtain ⟨t, a⟩ := a
  unfold step at h
  split at h
  · exact advance_renames h
  · next hp _ => exact begin_renames hp h
  · cases h

/-- No two entries have one name, and there is no entry for a name that a thread is going to enter. -/
structure Named (s : State T) : Prop where
  distinct : ∀ i j d e, s.dents i = some d → s.dents j = some e → d.name = e.name → i = j
  absent : ∀ u name, pending (s.place u) = some name → ∀ i d, s.dents i = some d → d.name ≠ name

theorem pending_inDir {name : Name} (h : pending x = some name) : inDir x = true := by
  cases x <;> simp_all [pending, inDir]

theorem step_named {a : T × Action} (hinv : Inv s) (hn : Named s) (h : step a s = .ok s') : Named s' := by
  obtain ⟨x, hplace, hentries⟩ := step_renames h
  obtain ⟨t, a⟩ := a
  have hpending : ∀ u name, pending (s'.place u) = some name → u ≠ t → pending (s.place u) = some name := by
    intro u name hu hne
    rwa [hplace, update_of_ne hne] at hu
  constructor
  · intro i j d e hi hj hname
    cases hentries with
    | fewer hx hd =>
      have hold : ∀ {i d}, s'.dents i = some d → s.dents i = some d := by
        intro i d hi
        rcases hd i with hsame | hgone
        · rwa [hsame] at hi
        · rw [hgone] at hi
          cases hi
      exact hn.distinct i j d e (hold hi) (hold hj) hname
    | entered hx k new ht hd =>
      rw [hd] at hi hj
      have hno := hn.absent t _ ht
      by_cases hik : i = k <;> by_cases hjk : j = k
      · rw [hik, hjk]
      · rw [hik, update_self] at hi
        rw [update_of_ne hjk] at hj
        cases hi
        exact absurd hname.symm (hno j e hj)
      · rw [update_of_ne hik] at hi
        rw [hjk, update_self] at hj
        cases hj
        exact absurd hname (hno i d hi)
      · rw [update_of_ne hik] at hi
        rw [update_of_ne hjk] at hj
        exact hn.distinct i j d e hi hj hname
    | looked name hx hd ht =>
      rw [hd] at hi hj
      exact hn.distinct i j d e hi hj hname
  · intro u name hu i d hi
    cases hentries with
    | fewer hx hd =>
      have hne : u ≠ t := by
        rintro rfl
        rw [hplace, update_self, hx] at hu
        cases hu
      rcases hd i with hsame | hgone
      · rw [hsame] at hi
        exact hn.absent u name (hpending u name hu hne) i d hi
      · rw [hgone] at hi
        cases hi
    | entered hx k new ht hd =>
      have hne : u ≠ t := by
        rintro rfl
        rw [hplace, update_self, hx] at hu
        cases hu
      -- both would have the lock of the directory
      have hout : inDir (s.place u) = false := hinv.only_dir (pending_inDir ht) hne
      rw [pending_inDir (hpending u name hu hne)] at hout
      cases hout
    | looked name' hx hd ht =>
      rw [hd] at hi
      by_cases hut : u = t
      · rw [hut, hplace, update_self, hx, Option.some.injEq] at hu
        subst hu
        rcases ht with hold | hnone
        · exact hn.absent t name' hold i d hi
        · exact search_none.mp hnone i (hinv.direc.bound i d hi) d hi
      · exact hn.absent u name (hpending u name hu hut) i d hi

theorem run_named (as : List (T × Action)) (h : run step as (initial : State T) = .ok s) : Inv s ∧ Named s := by
  have hinit : Named (initial : State T) := by
    constructor
    · intro i j d e hi
      cases hi
    · intro u name hu
      cases hu
  have hensures : Ensures (fun e => e = .blocked ∨ e = .panic) (fun s => Inv s ∧ Named s) (run step as (initial : State T)) := by
    refine run_ensures (fun a s ⟨hinv, hn⟩ => ?_) ⟨initial_inv, hinit⟩
    have hstep := (step_steps a hinv).1
    cases hs : step a s with
    | error e => rwa [hs] at hstep
    | ok s' =>
      rw [hs] at hstep
      exact ⟨hstep, step_named hinv hn hs⟩
  rwa [h] at hensures

end Names

section Reading

open OS161.Uiomove (Cell Copied Faulty Piece Right Seg SpaceRight Uio uiomove)

variable {T S : Type} [DecidableEq T] [DecidableEq S]

inductive ReadStop where
  | assertion
  | nullEntry
  | failed (e : Errno)
  | stopped (stop : Uiomove.Stop)
  deriving DecidableEq

/-- `semd_name` says where the name of an entry is. The lock of the directory is taken and given back. -/
def semfsGetdirentry (curas : Option S) (semd_name : ℕ → ℕ) (s : State T) (u : Uio S) (m : Uiomove.Memory) :
    Except ReadStop (Option Errno × Uio S × Uiomove.Memory) :=
  if u.uio_offset < 0 then .error .assertion
  else
    let pos := (u.uio_offset % 2^32).toNat
    if s.numDents ≤ pos then .ok (none, u, m)
    else match s.dents pos with
      | none => .error .nullEntry
      | some dent => match uiomove curas (semd_name pos) dent.name.length u m with
        | .error stop => .error (.stopped stop)
        | .ok r => .ok r

/-- The block into which a caller wants each name. -/
structure Reader (S : Type) where
  seg : Seg
  base : ℕ
  size : UInt32
  space : Option S

def Reader.uio (c : Reader S) (offset : ℤ) : Uio S :=
  ⟨[⟨c.base, c.size.toNat⟩], offset, c.size, c.seg, .read, c.space⟩

def Reader.cell (c : Reader S) (j : ℕ) : Cell :=
  if c.seg = .sysspace then .kernel (c.base + j) else .user (c.base + j)

/-- The first bytes of the block. -/
def Reader.got (c : Reader S) (size : ℕ) (m : Uiomove.Memory) : Name :=
  (List.range size).map fun j => (m.byte (c.cell j)).getD 0

/-- A caller reads names until nothing is transferred, for so many calls at most,
and passes the offset that it gets to the next call. -/
def readdir (curas : Option S) (semd_name : ℕ → ℕ) (s : State T) (c : Reader S) :
    ℕ → ℤ → Uiomove.Memory → Except ReadStop (Option (List Name))
  | 0, _, _ => .ok none
  | k+1, offset, m =>
    match semfsGetdirentry curas semd_name s (c.uio offset) m with
    | .error stop => .error stop
    | .ok (some e, _, _) => .error (.failed e)
    | .ok (none, u, m') =>
      let size := c.size.toNat - u.uio_resid.toNat
      if size = 0 then .ok (some [])
      else match readdir curas semd_name s c k u.uio_offset m' with
        | .error stop => .error stop
        | .ok names => .ok (names.map (c.got size m' :: ·))

/-- The names are where they should be, and the block is large enough, the caller's own and nobody else's. -/
structure Ready (curas : Option S) (semd_name : ℕ → ℕ) (s : State T) (c : Reader S) (m : Uiomove.Memory) : Prop where
  names : ∀ i d, s.dents i = some d → ∀ j, (hj : j < d.name.length) → m.kernel (semd_name i + j) = d.name[j]
  large : ∀ i d, s.dents i = some d → d.name.length ≤ c.size.toNat
  space : SpaceRight curas (c.uio 0)
  user : c.seg ≠ .sysspace → c.base + c.size.toNat ≤ USERSPACETOP ∧ ∀ j < c.size.toNat, m.user (c.base + j) ≠ none
  kernel : c.seg = .sysspace → ∀ i d, s.dents i = some d → ∀ j < d.name.length, ∀ l < c.size.toNat,
    semd_name i + j ≠ c.base + l

/-- Each name exactly once, and then nothing. -/
def Enumerates (curas : Option S) (semd_name : ℕ → ℕ) (s : State T) (c : Reader S) (m : Uiomove.Memory) : Prop :=
  ∃ k names, readdir curas semd_name s c k 0 m = .ok (some names) ∧ names.Nodup ∧
    ∀ name, name ∈ names ↔ search name s ≠ none

/-- Entries that lie one after the other, each as far from the next as its name is long, and end the table. -/
def Threaded (s : State T) : ℕ → List ℕ → Prop
  | pos, [] => s.numDents ≤ pos
  | pos, i::is => i = pos ∧ i < s.numDents ∧
    ∃ d, s.dents i = some d ∧ d.name ≠ [] ∧ Threaded s ((pos + d.name.length) % 2^32) is

/-- All entries lie so, from the first place on. -/
def InTurn (s : State T) : Prop :=
  ∃ is : List ℕ, is.Nodup ∧ (∀ i, i ∈ is ↔ i < s.numDents ∧ s.dents i ≠ none) ∧ Threaded s 0 is

def nameAt (s : State T) (i : ℕ) : Name := ((s.dents i).map Direntry.name).getD []

variable {curas : Option S} {semd_name : ℕ → ℕ} {s : State T} {c : Reader S} {m m' : Uiomove.Memory} {d : Direntry}
  {i pos : ℕ} {offset : ℤ}

omit [DecidableEq S] in
theorem Reader.cell_injective (c : Reader S) {j l : ℕ} (h : c.cell j = c.cell l) : j = l := by
  unfold Reader.cell at h
  split_ifs at h <;> simpa using h

omit [DecidableEq S] in
theorem mem_pieceWays_reader {p : Piece} (hp : p.base = c.base) {x : Cell × Cell} :
    x ∈ Uiomove.pieceWays c.seg .read p ↔ ∃ j < p.size, (Cell.kernel (p.ptr + j), c.cell j) = x := by
  rw [Uiomove.mem_pieceWays, hp]
  rfl

omit [DecidableEq T] [DecidableEq S] in
/-- No part of a name that fits into the block runs into a fault. -/
theorem Ready.good (h : Ready curas semd_name s c m) {ptr size : ℕ} (hpos : size ≠ 0) (hsize : size ≤ c.size.toNat) :
    ¬Faulty c.seg m.user ⟨ptr, c.base, size⟩ := by
  rintro ⟨hseg, hfault⟩
  obtain ⟨hblock, hmapped⟩ := h.user hseg
  unfold USERSPACETOP at hblock
  refine hfault ⟨?_, fun j hj => hmapped j (by simp only at hj; omega)⟩
  rw [copycheck_eq (by simp only; omega) (by simp only; omega) (by simp only; omega)]
  unfold USERSPACETOP
  rw [if_neg (by simp only; omega), if_pos (by simp only; omega)]

omit [DecidableEq T] [DecidableEq S] in
/-- The names and the block stay as they are when a name is copied into the block. -/
theorem Ready.after (h : Ready curas semd_name s c m) {p : Piece} (hbase : p.base = c.base) (hsize : p.size ≤ c.size.toNat)
    (hcopied : Copied (Uiomove.pieceWays c.seg .read p) m.byte m'.byte) : Ready curas semd_name s c m' := by
  have hsame : ∀ a, (∀ j < p.size, a ≠ c.cell j) → m'.byte a = m.byte a := by
    intro a ha
    refine hcopied.2 a fun x hx => ?_
    obtain ⟨j, hj, rfl⟩ := (mem_pieceWays_reader hbase).mp hx
    exact ha j hj
  refine ⟨fun i d hd j hj => ?_, h.large, h.space, fun hseg => ⟨(h.user hseg).1, fun j hj => ?_⟩, h.kernel⟩
  · have hout : ∀ l < p.size, Cell.kernel (semd_name i + j) ≠ c.cell l := by
      intro l hl
      unfold Reader.cell
      split_ifs with hseg
      · have hne := h.kernel hseg i d hd j hj l (by omega)
        simpa using hne
      · exact Cell.noConfusion
    rw [← h.names i d hd j hj]
    exact Option.some.inj (hsame _ hout)
  · have huser : c.cell j = .user (c.base + j) := if_neg hseg
    by_cases hjp : j < p.size
    · have hbyte := hcopied.1 _ ((mem_pieceWays_reader hbase).mpr ⟨j, hjp, rfl⟩)
      simp only [huser] at hbyte
      exact Option.ne_none_iff_exists'.mpr ⟨_, hbyte⟩
    · have hbyte := hsame (c.cell j) fun l hl hjl => hjp (c.cell_injective hjl ▸ hl)
      rw [huser] at hbyte
      have hmapped := (h.user hseg).2 j hj
      exact fun hnone => hmapped (hbyte.symm.trans hnone)

omit [DecidableEq T] in
theorem getdirentry_entry (hr : Ready curas semd_name s c m) (hoff : 0 ≤ offset) (hpos : (offset % 2^32).toNat = pos)
    (hlt : pos < s.numDents) (hd : s.dents pos = some d) :
    ∃ u' m', semfsGetdirentry curas semd_name s (c.uio offset) m = .ok (none, u', m') ∧
      u'.uio_offset = offset + d.name.length ∧ c.size.toNat - u'.uio_resid.toNat = d.name.length ∧
      c.got d.name.length m' = d.name ∧ Ready curas semd_name s c m' := by
  have hlarge := hr.large pos d hd
  have hnames := hr.names pos d hd
  obtain ⟨len, hlen⟩ : ∃ len, d.name.length = len := ⟨_, rfl⟩
  obtain ⟨ptr, hptr⟩ : ∃ ptr, semd_name pos = ptr := ⟨_, rfl⟩
  rw [hlen] at hlarge
  simp only [hptr] at hnames
  have hpieces : Uiomove.pieces ptr len (c.uio offset).uio_iov = if len = 0 then [] else [⟨ptr, c.base, len⟩] := by
    have hcut : (if len < c.size.toNat then len else c.size.toNat) = len := by split <;> omega
    simp only [Reader.uio, Uiomove.pieces, hcut]
  have hright : Right ptr len (c.uio offset) m (Uiomove.moveLoop ptr len (c.uio offset) m) :=
    Uiomove.moveLoop_right (by simp [Reader.uio, Uiomove.total]) (.inl (.inl hlarge))
  have hmove : uiomove curas ptr len (c.uio offset) m = Uiomove.moveLoop ptr len (c.uio offset) m := if_pos hr.space
  have hcall : semfsGetdirentry curas semd_name s (c.uio offset) m =
      match uiomove curas ptr len (c.uio offset) m with
      | .error stop => .error (.stopped stop)
      | .ok r => .ok r := by
    have hneg : ¬(c.uio offset).uio_offset < 0 := Int.not_lt.mpr hoff
    have hslot : ((c.uio offset).uio_offset % 2^32).toNat = pos := hpos
    unfold semfsGetdirentry
    rw [if_neg hneg]
    simp only [hslot, if_neg (Nat.not_le.mpr hlt), hd, hlen, hptr]
  rw [hcall, hmove]
  obtain ⟨moved, hres⟩ : ∃ moved, Uiomove.moveLoop ptr len (c.uio offset) m = moved := ⟨_, rfl⟩
  rw [hres] at hright ⊢
  rcases moved with stop | ⟨_ | e, u', m'⟩
  · exact hright.elim
  case ok.some =>
    obtain ⟨completed, bad, rest, hsplit, _, hbad, _⟩ := hright
    have hmem : bad ∈ Uiomove.pieces ptr len (c.uio offset).uio_iov := by
      rw [hsplit]
      exact List.mem_append_right _ List.mem_cons_self
    rw [hpieces] at hmem
    split_ifs at hmem with hzero
    · cases hmem
    · rw [List.mem_singleton] at hmem
      rw [hmem] at hbad
      exact absurd hbad (hr.good hzero hlarge)
  case ok.none =>
    obtain ⟨_, hacc, _, hbytes⟩ := hright
    have hmin : min len (c.uio offset).uio_resid.toNat = len := Nat.min_eq_left hlarge
    rw [hmin] at hacc hbytes
    have hways : Uiomove.ways (c.uio offset) ptr len = Uiomove.pieceWays c.seg .read ⟨ptr, c.base, len⟩ := by
      rw [← Uiomove.pieces_ways, hpieces]
      split_ifs with hzero
      · rw [hzero]
        rfl
      · exact List.append_nil _
    rw [hways] at hbytes
    have hapart : Uiomove.Apart (Uiomove.pieceWays c.seg .read ⟨ptr, c.base, len⟩) := by
      constructor
      · have hends : (Uiomove.pieceWays c.seg .read ⟨ptr, c.base, len⟩).map Prod.snd = (List.range len).map c.cell := by
          rw [Uiomove.pieceWays, List.map_map]
          rfl
        rw [hends]
        exact List.Nodup.map (fun _ _ h => c.cell_injective h) List.nodup_range
      · intro x hx y hy
        obtain ⟨j, hj, rfl⟩ := (mem_pieceWays_reader rfl).mp hx
        obtain ⟨l, hl, rfl⟩ := (mem_pieceWays_reader rfl).mp hy
        simp only at hj hl
        unfold Reader.cell
        split_ifs with hseg
        · have hne := hr.kernel hseg pos d hd j (by omega) l (by omega)
          rw [hptr] at hne
          simpa using hne
        · exact Cell.noConfusion
    have hcopied := hbytes hapart
    have hgot : c.got len m' = d.name := by
      refine List.ext_getElem (by simp [Reader.got, hlen]) fun j hj hj' => ?_
      have hlt : j < len := by omega
      have hbyte : m'.byte (c.cell j) = m.byte (.kernel (ptr + j)) :=
        hcopied.1 _ ((mem_pieceWays_reader (c := c) rfl).mpr ⟨j, hlt, rfl⟩)
      simp only [Reader.got, List.getElem_map, List.getElem_range]
      rw [hbyte]
      exact hnames j hj'
    refine ⟨u', m', rfl, ?_, ?_, ?_, hr.after rfl hlarge hcopied⟩
    · rw [hacc.offset, hlen]
      rfl
    · have hresid : len + u'.uio_resid.toNat = c.size.toNat := hacc.resid
      omega
    · rw [hlen]
      exact hgot

omit [DecidableEq T] in
theorem getdirentry_end (hoff : 0 ≤ offset) (h : s.numDents ≤ (offset % 2^32).toNat) :
    semfsGetdirentry curas semd_name s (c.uio offset) m = .ok (none, c.uio offset, m) := by
  have hneg : ¬(c.uio offset).uio_offset < 0 := Int.not_lt.mpr hoff
  have hend : s.numDents ≤ ((c.uio offset).uio_offset % 2^32).toNat := h
  unfold semfsGetdirentry
  rw [if_neg hneg]
  exact if_pos hend

omit [DecidableEq T] in
theorem getdirentry_null (hoff : 0 ≤ offset) (hpos : (offset % 2^32).toNat = pos) (hlt : pos < s.numDents)
    (hd : s.dents pos = none) : semfsGetdirentry curas semd_name s (c.uio offset) m = .error .nullEntry := by
  have hneg : ¬(c.uio offset).uio_offset < 0 := Int.not_lt.mpr hoff
  have hslot : ((c.uio offset).uio_offset % 2^32).toNat = pos := hpos
  unfold semfsGetdirentry
  rw [if_neg hneg]
  simp only [hslot, if_neg (Nat.not_le.mpr hlt), hd]

omit [DecidableEq T] in
/-- The end of the directory is reported by transferring nothing. -/
theorem readdir_end (k : ℕ) (hoff : 0 ≤ offset) (h : s.numDents ≤ (offset % 2^32).toNat) :
    readdir curas semd_name s c (k+1) offset m = .ok (some []) := by
  simp only [readdir, getdirentry_end hoff h]
  exact if_pos (Nat.sub_self _)

omit [DecidableEq T] in
theorem readdir_null (k : ℕ) (hoff : 0 ≤ offset) (hpos : (offset % 2^32).toNat = pos) (hlt : pos < s.numDents)
    (hd : s.dents pos = none) : readdir curas semd_name s c (k+1) offset m = .error .nullEntry := by
  simp only [readdir, getdirentry_null hoff hpos hlt hd]

omit [DecidableEq T] in
/-- A name is read, and the rest from where its length leads to. An empty one looks like the end. -/
theorem readdir_entry (hr : Ready curas semd_name s c m) (k : ℕ) (hoff : 0 ≤ offset)
    (hpos : (offset % 2^32).toNat = pos) (hlt : pos < s.numDents) (hd : s.dents pos = some d) :
    ∃ m', Ready curas semd_name s c m' ∧ readdir curas semd_name s c (k+1) offset m =
      if d.name.length = 0 then .ok (some [])
      else match readdir curas semd_name s c k (offset + d.name.length) m' with
        | .error stop => .error stop
        | .ok names => .ok (names.map (d.name :: ·)) := by
  obtain ⟨u', m', hcall, hoffset, hsize, hgot, hready⟩ := getdirentry_entry hr hoff hpos hlt hd
  refine ⟨m', hready, ?_⟩
  simp only [readdir, hcall, hoffset, hsize, hgot]

theorem next_slot (hpos : (offset % 2^32).toNat = pos) (len : ℕ) :
    ((offset + len) % 2^32).toNat = (pos + len) % 2^32 := by
  omega

omit [DecidableEq T] in
/-- Entries that lie one after the other are read one after the other. -/
theorem readdir_threaded {is : List ℕ} (hr : Ready curas semd_name s c m) (hoff : 0 ≤ offset)
    (hpos : (offset % 2^32).toNat = pos) (h : Threaded s pos is) :
    readdir curas semd_name s c (is.length+1) offset m = .ok (some (is.map (nameAt s))) := by
  induction is generalizing offset pos m with
  | nil => exact readdir_end 0 hoff (hpos ▸ h)
  | cons i is ih =>
    obtain ⟨rfl, hlt, d, hd, hne, hrest⟩ := h
    obtain ⟨m', hready, hread⟩ := readdir_entry hr (is.length+1) hoff hpos hlt hd
    have hlen : d.name.length ≠ 0 := mt List.length_eq_zero_iff.mp hne
    have hname : nameAt s i = d.name := by simp [nameAt, hd]
    have hnext := ih hready (by omega) (next_slot hpos d.name.length) hrest
    rw [List.length_cons, hread, if_neg hlen, hnext, List.map_cons, hname]
    rfl

omit [DecidableEq T] in
/-- What has been read are the names of such entries, unless there is an empty name. -/
theorem threaded_of_readdir {k : ℕ} {names : List Name} (hr : Ready curas semd_name s c m) (hoff : 0 ≤ offset)
    (hpos : (offset % 2^32).toNat = pos) (h : readdir curas semd_name s c k offset m = .ok (some names)) :
    [] ∉ names ∧ ((∃ is, names = is.map (nameAt s) ∧ Threaded s pos is) ∨
      ∃ i d, s.dents i = some d ∧ i < s.numDents ∧ d.name = []) := by
  induction k generalizing offset pos m names with
  | zero => cases h
  | succ k ih =>
    by_cases hlt : pos < s.numDents
    · cases hd : s.dents pos with
      | none =>
        rw [readdir_null k hoff hpos hlt hd] at h
        cases h
      | some d =>
        obtain ⟨m', hready, hread⟩ := readdir_entry hr k hoff hpos hlt hd
        rw [hread] at h
        split_ifs at h with hzero
        · cases h
          exact ⟨List.not_mem_nil, .inr ⟨pos, d, hd, hlt, List.length_eq_zero_iff.mp hzero⟩⟩
        · have hne : d.name ≠ [] := mt List.length_eq_zero_iff.mpr hzero
          split at h
          · cases h
          · next read hrest =>
            cases read with
            | none => cases h
            | some names' =>
              cases h
              obtain ⟨hno, hthread⟩ := ih hready (by omega) (next_slot hpos d.name.length) hrest
              refine ⟨fun hmem => ?_, hthread.imp_left fun ⟨is, hnames, hth⟩ => ?_⟩
              · rcases List.mem_cons.mp hmem with hnil | hmem
                · exact hne hnil.symm
                · exact hno hmem
              · refine ⟨pos::is, ?_, rfl, hlt, d, hd, hne, hth⟩
                rw [List.map_cons, ← hnames]
                simp [nameAt, hd]
    · have hend : s.numDents ≤ (offset % 2^32).toNat := by omega
      rw [readdir_end k hoff hend] at h
      cases h
      exact ⟨List.not_mem_nil, .inl ⟨[], rfl, Nat.not_lt.mp hlt⟩⟩

omit [DecidableEq T] in
theorem Threaded.entry {is : List ℕ} (h : Threaded s pos is) (hi : i ∈ is) :
    i < s.numDents ∧ ∃ d, s.dents i = some d ∧ nameAt s i = d.name := by
  induction is generalizing pos with
  | nil => cases hi
  | cons j is ih =>
    obtain ⟨-, hlt, d, hd, -, hrest⟩ := h
    rcases List.mem_cons.mp hi with rfl | hmem
    · exact ⟨hlt, d, hd, by simp [nameAt, hd]⟩
    · exact ih hrest hmem

omit [DecidableEq T] in
theorem search_entry (hlt : i < s.numDents) (hd : s.dents i = some d) : search d.name s ≠ none :=
  fun hnone => search_none.mp hnone i hlt d hd rfl

omit [DecidableEq T] in
theorem enumerates_iff (hbound : ∀ i d, s.dents i = some d → i < s.numDents) (hn : Named s)
    (hr : Ready curas semd_name s c m) : Enumerates curas semd_name s c m ↔ InTurn s := by
  have hzero : ((0 : ℤ) % 2^32).toNat = 0 := rfl
  constructor
  · rintro ⟨k, names, hread, hnodup, hall⟩
    obtain ⟨hno, ⟨is, rfl, hth⟩ | ⟨i, d, hd, hlt, hempty⟩⟩ := threaded_of_readdir hr (Int.le_refl 0) hzero hread
    · refine ⟨is, hnodup.of_map, fun i => ⟨fun hi => ?_, fun ⟨hlt, hne⟩ => ?_⟩, hth⟩
      · obtain ⟨hlt, d, hd, -⟩ := hth.entry hi
        exact ⟨hlt, by simp [hd]⟩
      · obtain ⟨d, hd⟩ := Option.ne_none_iff_exists'.mp hne
        obtain ⟨j, hj, hname⟩ := List.mem_map.mp ((hall d.name).mpr (search_entry hlt hd))
        obtain ⟨_, e, he, hej⟩ := hth.entry hj
        rwa [hn.distinct i j d e hd he (hname.symm.trans hej)]
    · have hmem : d.name ∈ names := (hall d.name).mpr (search_entry hlt hd)
      rw [hempty] at hmem
      exact absurd hmem hno
  · rintro ⟨is, hnodup, hall, hth⟩
    refine ⟨_, _, readdir_threaded hr (Int.le_refl 0) hzero hth, ?_, fun name => ?_⟩
    · refine List.Nodup.map_on (fun i hi j hj hij => ?_) hnodup
      obtain ⟨_, d, hd, hdi⟩ := hth.entry hi
      obtain ⟨_, e, he, hej⟩ := hth.entry hj
      exact hn.distinct i j d e hd he (hdi.symm.trans (hij.trans hej))
    · constructor
      · intro hname
        obtain ⟨i, hi, rfl⟩ := List.mem_map.mp hname
        obtain ⟨hlt, d, hd, hdi⟩ := hth.entry hi
        rw [hdi]
        exact search_entry hlt hd
      · intro hfound
        obtain ⟨⟨i, k⟩, hs⟩ := Option.ne_none_iff_exists'.mp hfound
        obtain ⟨d, hd, hname, -⟩ := search_name hs
        have hi : i ∈ is := (hall i).mpr ⟨hbound i d hd, by simp [hd]⟩
        exact List.mem_map.mpr ⟨i, hi, by simp [nameAt, hd, hname]⟩

/-- Whatever has been created and removed, the directory is read right exactly if its entries lie in turn. -/
theorem enumerates_right_iff (as : List (T × Action)) (hrun : run step as (initial : State T) = .ok s)
    (hr : Ready curas semd_name s c m) : Enumerates curas semd_name s c m ↔ InTurn s := by
  obtain ⟨hinv, hn⟩ := run_named as hrun
  exact enumerates_iff hinv.direc.bound hn hr

/-- A process with a block of sixteen bytes, which are the letter of the only name. -/
def sixteen : Reader ℕ := ⟨.userspace, 0x1000, 16, some 1⟩

def letters : Uiomove.Memory := ⟨fun _ => 97, fun _ => some 97⟩

/-- One semaphore, whose name has one letter. -/
def oneMade : List (Fin 1 × Action) := (0, .creat [97] true) :: List.replicate 6 (0, .advance plenty false)

theorem sixteen_ready {s : State (Fin 1)} (h : ∀ i d, s.dents i = some d → d.name = [97]) :
    Ready (some 1) (fun _ => 0x80001000) s sixteen letters := by
  refine ⟨fun i d hd j hj => ?_, fun i d hd => ?_, by decide, fun _ => ⟨by decide, by simp [letters]⟩, ?_⟩
  · have hname := h i d hd
    have hj' : j = 0 := by
      rw [hname] at hj
      exact Nat.lt_one_iff.mp hj
    subst hj'
    simp [letters, hname]
  · rw [h i d hd]
    decide
  · intro hseg
    cases hseg

theorem oneMade_run : ∃ s, run step oneMade (initial : State (Fin 1)) = .ok s ∧
    s.dents = update (fun _ => none) 0 (some ⟨[97], 0⟩) := ⟨_, rfl, rfl⟩

theorem oneMade_right_iff : ∃ s, run step oneMade (initial : State (Fin 1)) = .ok s ∧
    (Enumerates (some 1) (fun _ => 0x80001000) s sixteen letters ↔ InTurn s) := by
  obtain ⟨s, hrun, hdents⟩ := oneMade_run
  refine ⟨s, hrun, enumerates_right_iff oneMade hrun (sixteen_ready fun i d hd => ?_)⟩
  rw [hdents, update_apply] at hd
  split_ifs at hd
  cases hd
  rfl

/-- It is removed again. -/
def oneRemoved : List (Fin 1 × Action) := oneMade ++ (0, .remove [97]) :: List.replicate 6 (0, .advance plenty false)

theorem oneRemoved_run : ∃ s, run step oneRemoved (initial : State (Fin 1)) = .ok s ∧
    s.dents = update (update (fun _ => none) 0 (some ⟨[97], 0⟩)) 0 none ∧ s.numDents = 1 := ⟨_, rfl, rfl, rfl⟩

/-- The first call runs into the empty entry. -/
theorem removed_dereferenced : ∃ s, run step oneRemoved (initial : State (Fin 1)) = .ok s ∧
    Ready (some 1) (fun _ => 0x80001000) s sixteen letters ∧
    (∀ k, readdir (some 1) (fun _ => 0x80001000) s sixteen (k+1) 0 letters = .error .nullEntry) ∧
    ¬Enumerates (some 1) (fun _ => 0x80001000) s sixteen letters := by
  obtain ⟨s, hrun, hdents, hnum⟩ := oneRemoved_run
  have hnone : ∀ i, s.dents i = none := by
    intro i
    rw [hdents, update_idem]
    simp only [update_apply, ite_self]
  have hnull : ∀ k, readdir (some 1) (fun _ => 0x80001000) s sixteen (k+1) 0 letters = .error .nullEntry :=
    fun k => readdir_null k (Int.le_refl 0) rfl (by rw [hnum]; exact Nat.one_pos) (hnone 0)
  refine ⟨s, hrun, sixteen_ready fun i d hd => ?_, hnull, ?_⟩
  · rw [hnone] at hd
    cases hd
  · rintro ⟨k, names, hread, -⟩
    cases k with
    | zero => cases hread
    | succ k =>
      rw [hnull] at hread
      cases hread

end Reading

end OS161.SemDirectory
