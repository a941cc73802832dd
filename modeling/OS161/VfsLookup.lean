import OS161.VfsList

/-!
# From a path to a vnode

A path begins at a device, at the boot file system, at the root of the file system
that the current directory is on, or at the current directory; a colon before any
slash, or a slash at its head, tells which. `getdevice` finds the vnode to begin
at and what is left of the path, and the file system does the rest. What the file
systems answer is supplied; the references are counted.
-/

set_option autoImplicit false

namespace OS161.VfsLookup

open Function OS161.Vfs OS161.Runs OS161.VfsList

/-- The devices, the boot file system and the current directory. -/
structure Places where
  knowndevs : List KnownDev
  bootfs : Option ℕ
  cwd : Option ℕ

/-- The answers of the file systems: what a vnode is on, and `VOP_LOOKUP` and `VOP_LOOKPARENT` on it. -/
structure Answers where
  vnFs : ℕ → Option Fs
  lookup : ℕ → Name → Except Errno ℕ
  lookparent : ℕ → Name → ℕ → Except Errno (ℕ × Name)

/-- An answer, with a reference to the vnode that it is about. -/
def settle (r : Except Errno ℕ) (c : Refcounts) : Except Errno ℕ × Refcounts :=
  match r with
  | .ok v => (.ok v, acquired v c)
  | .error e => (.error e, c)

def settleParent (r : Except Errno (ℕ × Name)) (c : Refcounts) : Except Errno (ℕ × Name) × Refcounts :=
  match r with
  | .ok (v, name) => (.ok (v, name), acquired v c)
  | .error e => (.error e, c)

def vfsGetcurdir (p : Places) (c : Refcounts) : Root :=
  match p.cwd with
  | none => .ok (.error .enoent, c)
  | some v =>
    match vnodeIncref v c with
    | .error stop => .error stop
    | .ok c' => .ok (.ok v, c')

/-- The first colon or slash from `i` on: `slash` and `colon` in `getdevice`. -/
def scan : ℕ → Name → Option ℕ × Option ℕ
  | _, [] => (none, none)
  | i, ch::chs =>
    if ch = ':' then (none, some i)
    else if ch = '/' then (some i, none)
    else scan (i+1) chs

def skipSlashes : Name → Name
  | [] => []
  | ch::chs => if ch = '/' then skipSlashes chs else ch::chs

/-- `:path`, from the root of the current file system. -/
def currentRoot (a : Answers) (p : Places) (c : Refcounts) : Root :=
  match vfsGetcurdir p c with
  | .error stop => .error stop
  | .ok (.error e, c') => .ok (.error e, c')
  | .ok (.ok vn, c') =>
    match a.vnFs vn with
    | none => .error .panic
    | some fs =>
      match fsopGetroot fs c' with
      | .error stop => .error stop
      | .ok (r, c'') =>
        match vnodeDecref vn c'' with
        | .error stop => .error stop
        | .ok c''' => .ok (r, c''')

def bootRoot (p : Places) (c : Refcounts) : Root :=
  match p.bootfs with
  | none => .ok (.error .enoent, c)
  | some v =>
    match vnodeIncref v c with
    | .error stop => .error stop
    | .ok c' => .ok (.ok v, c')

/-- The vnode to begin at, with what is left of the path. -/
def getdevice (a : Answers) (p : Places) (path : Name) (c : Refcounts) : Name × Root :=
  if path = [] then (path, .ok (.error .einval, c))
  else match scan 0 path with
    | (some (_+1), none) => (path, vfsGetcurdir p c)
    | (none, none) => (path, vfsGetcurdir p c)
    | (_, some (colon+1)) => (skipSlashes (path.drop (colon+2)), vfsGetroot (path.take (colon+1)) c p.knowndevs)
    | (some 0, none) => (skipSlashes (path.drop 1), bootRoot p c)
    | (_, some 0) => (skipSlashes (path.drop 1), currentRoot a p c)

def vfsLookparent (a : Answers) (p : Places) (path : Name) (buflen : ℕ) (c : Refcounts) :
    Except Stop (Except Errno (ℕ × Name) × Refcounts) :=
  match getdevice a p path c with
  | (_, .error stop) => .error stop
  | (_, .ok (.error e, c')) => .ok (.error e, c')
  | (rest, .ok (.ok startvn, c')) =>
    let (r, c'') := if rest = [] then (.error .einval, c') else settleParent (a.lookparent startvn rest buflen) c'
    match vnodeDecref startvn c'' with
    | .error stop => .error stop
    | .ok c''' => .ok (r, c''')

def vfsLookup (a : Answers) (p : Places) (path : Name) (c : Refcounts) : Root :=
  match getdevice a p path c with
  | (_, .error stop) => .error stop
  | (_, .ok (.error e, c')) => .ok (.error e, c')
  | (rest, .ok (.ok startvn, c')) =>
    if rest = [] then .ok (.ok startvn, c')
    else
      let (r, c'') := settle (a.lookup startvn rest) c'
      match vnodeDecref startvn c'' with
      | .error stop => .error stop
      | .ok c''' => .ok (r, c''')

/-- Where a path can begin. -/
inductive Start where
  | dev (d : Name)
  | boot
  | here
  | cwd
  deriving DecidableEq

/-- No colon or slash. -/
def Plain (d : Name) : Prop := ∀ ch ∈ d, ch ≠ ':' ∧ ch ≠ '/'

def Slashes (s : Name) : Prop := ∀ ch ∈ s, ch = '/'

/-- The grammar of paths: where one begins and what is left of it. -/
inductive Grammar : Name → Start → Name → Prop where
  | dev (d slashes rest : Name) (hne : d ≠ []) (hd : Plain d) (hs : Slashes slashes) (hr : rest.head? ≠ some '/') :
      Grammar (d ++ ':' :: (slashes ++ rest)) (.dev d) rest
  | boot (slashes rest : Name) (hs : Slashes slashes) (hr : rest.head? ≠ some '/') :
      Grammar ('/' :: (slashes ++ rest)) .boot rest
  | here (slashes rest : Name) (hs : Slashes slashes) (hr : rest.head? ≠ some '/') :
      Grammar (':' :: (slashes ++ rest)) .here rest
  | cwd (path : Name) (hne : path ≠ []) (hslash : path.head? ≠ some '/')
      (hcolon : ∀ d rest, path = d ++ ':' :: rest → '/' ∈ d) : Grammar path .cwd path

/-- What a device stands for under one of its names: the file system on it, or itself. -/
def rootOf (d : Name) (kd : KnownDev) : Option (Except Errno ℕ) :=
  match kd.fs with
  | .fs f =>
    if kd.name = d ∨ f.volname = some d then some f.root
    else if kd.rawname = some d then some (.ok kd.vnode)
    else none
  | _ =>
    if kd.name = d then some (if kd.rawname ≠ none then .error .enxio else .ok kd.vnode)
    else if kd.rawname = some d then some (.ok kd.vnode)
    else none

/-- The vnode that a path begins at. -/
def beginning (a : Answers) (p : Places) : Start → Except Errno ℕ
  | .dev d => (p.knowndevs.findSome? (rootOf d)).getD (.error .enodev)
  | .boot => match p.bootfs with
    | none => .error .enoent
    | some v => .ok v
  | .here => match p.cwd with
    | none => .error .enoent
    | some v => match a.vnFs v with
      | none => .error .enoent
      | some fs => fs.root
  | .cwd => match p.cwd with
    | none => .error .enoent
    | some v => .ok v

/-- The vnode that is found from there. -/
def found (a : Answers) (p : Places) (start : Start) (rest : Name) : Except Errno ℕ :=
  match beginning a p start with
  | .error e => .error e
  | .ok v => if rest = [] then .ok v else a.lookup v rest

def foundParent (a : Answers) (p : Places) (start : Start) (rest : Name) (buflen : ℕ) : Except Errno (ℕ × Name) :=
  match beginning a p start with
  | .error e => .error e
  | .ok v => if rest = [] then .error .einval else a.lookparent v rest buflen

/-- A device in the table: it is there for something, and has its vnode. -/
structure DeviceSound (c : Refcounts) (kd : KnownDev) : Prop where
  vnode : c kd.vnode ≠ 0
  device : kd.device = none → kd.rawname = none ∧ ∃ f, kd.fs = .fs f
  swap : kd.fs = .swap → kd.rawname ≠ none

/-- Nothing that the VFS layer points to is gone, and a current directory is on a file system. -/
structure Sound (a : Answers) (p : Places) (c : Refcounts) : Prop where
  devices : ∀ kd ∈ p.knowndevs, DeviceSound c kd
  boot : ∀ v, p.bootfs = some v → c v ≠ 0
  cwd : ∀ v, p.cwd = some v → c v ≠ 0 ∧ a.vnFs v ≠ none

variable {a : Answers} {p : Places} {c : Refcounts} {path d rest slashes : Name} {start start' : Start} {rest' : Name}
  {kd : KnownDev} {v : ℕ} {ch : Char} {i : ℕ}

theorem incref_ok (h : c v ≠ 0) : vnodeIncref v c = .ok (acquired v c) := if_neg h

theorem skipSlashes_append (hs : Slashes slashes) (hr : rest.head? ≠ some '/') : skipSlashes (slashes ++ rest) = rest := by
  induction slashes with
  | nil =>
    cases rest with
    | nil => rfl
    | cons ch chs =>
      have hne : ch ≠ '/' := fun heq => hr (by rw [heq]; rfl)
      exact if_neg hne
  | cons ch chs ih =>
    have hch : ch = '/' := hs ch List.mem_cons_self
    rw [List.cons_append, skipSlashes, if_pos hch]
    exact ih fun x hx => hs x (List.mem_cons_of_mem _ hx)

theorem scan_plain (hd : Plain d) : scan i (d ++ rest) = scan (i + d.length) rest := by
  induction d generalizing i with
  | nil => rfl
  | cons ch chs ih =>
    obtain ⟨hcolon, hslash⟩ := hd ch List.mem_cons_self
    rw [List.cons_append, scan, if_neg hcolon, if_neg hslash, ih fun x hx => hd x (List.mem_cons_of_mem _ hx),
      List.length_cons]
    congr 1
    omega

/-- Every path is plain up to its end, a colon or a slash. -/
theorem split_plain (path : Name) : ∃ d rest, path = d ++ rest ∧ Plain d ∧
    (rest = [] ∨ rest.head? = some ':' ∨ rest.head? = some '/') := by
  induction path with
  | nil => exact ⟨[], [], rfl, (fun _ h => by cases h), .inl rfl⟩
  | cons ch chs ih =>
    by_cases hmark : ch = ':' ∨ ch = '/'
    · refine ⟨[], ch::chs, rfl, (fun _ h => by cases h), .inr ?_⟩
      rw [List.head?_cons, Option.some.injEq, Option.some.injEq]
      exact hmark
    · obtain ⟨d, rest, rfl, hd, hrest⟩ := ih
      refine ⟨ch::d, rest, rfl, ?_, hrest⟩
      intro x hx
      obtain rfl | hx := List.mem_cons.mp hx
      · exact not_or.mp hmark
      · exact hd x hx

/-- What follows some slashes, and all of them. -/
theorem split_slashes (path : Name) : ∃ slashes rest, path = slashes ++ rest ∧ Slashes slashes ∧ rest.head? ≠ some '/' := by
  induction path with
  | nil => exact ⟨[], [], rfl, (fun _ h => by cases h), by simp⟩
  | cons ch chs ih =>
    by_cases hch : ch = '/'
    · obtain ⟨slashes, rest, rfl, hs, hr⟩ := ih
      refine ⟨ch::slashes, rest, rfl, ?_, hr⟩
      intro x hx
      obtain rfl | hx := List.mem_cons.mp hx
      · exact hch
      · exact hs x hx
    · refine ⟨[], ch::chs, rfl, (fun _ h => by cases h), ?_⟩
      rwa [List.head?_cons, ne_eq, Option.some.injEq]

/-- The start and the rest as `getdevice` tells them apart. -/
def parsed (path : Name) : Start × Name :=
  match scan 0 path with
  | (some (_+1), none) => (.cwd, path)
  | (none, none) => (.cwd, path)
  | (_, some (colon+1)) => (.dev (path.take (colon+1)), skipSlashes (path.drop (colon+2)))
  | (some 0, none) => (.boot, skipSlashes (path.drop 1))
  | (_, some 0) => (.here, skipSlashes (path.drop 1))

def startVnode (a : Answers) (p : Places) (c : Refcounts) : Start → Root
  | .dev d => vfsGetroot d c p.knowndevs
  | .boot => bootRoot p c
  | .here => currentRoot a p c
  | .cwd => vfsGetcurdir p c

theorem getdevice_parsed (a : Answers) (p : Places) (c : Refcounts) (hpath : path ≠ []) :
    getdevice a p path c = ((parsed path).2, startVnode a p c (parsed path).1) := by
  unfold getdevice parsed
  rw [if_neg hpath]
  rcases scan 0 path with ⟨slash, colon⟩
  cases slash with
  | none =>
    cases colon with
    | none => rfl
    | some k => cases k <;> rfl
  | some j =>
    cases colon with
    | none => cases j <;> rfl
    | some k => cases j <;> cases k <;> rfl

/-- `getdevice` parses paths by the grammar. -/
theorem grammar_parsed (h : Grammar path start rest) : parsed path = (start, rest) := by
  cases h with
  | dev d slashes rest hne hd hs hr =>
    obtain ⟨k, hk⟩ := Nat.exists_eq_succ_of_ne_zero (mt List.length_eq_zero_iff.mp hne)
    have hscan : scan 0 (d ++ ':' :: (slashes ++ rest)) = (none, some (k+1)) := by
      rw [scan_plain hd, Nat.zero_add, hk]
      rfl
    have htake : (d ++ ':' :: (slashes ++ rest)).take (k+1) = d := List.take_left' hk
    have hdrop : (d ++ ':' :: (slashes ++ rest)).drop (k+2) = slashes ++ rest := by
      rw [List.drop_append, hk, List.drop_eq_nil_of_le (by omega), List.nil_append, show k+2-k.succ = 1 by omega]
      rfl
    simp only [parsed, hscan, htake, hdrop, skipSlashes_append hs hr]
  | boot slashes rest hs hr =>
    show (Start.boot, skipSlashes (slashes ++ rest)) = _
    rw [skipSlashes_append hs hr]
  | here slashes rest hs hr =>
    show (Start.here, skipSlashes (slashes ++ rest)) = _
    rw [skipSlashes_append hs hr]
  | cwd path hne hslash hcolon =>
    obtain ⟨d, tail, rfl, hd, htail⟩ := split_plain path
    unfold parsed
    rw [scan_plain hd, Nat.zero_add]
    cases tail with
    | nil => rfl
    | cons ch chs =>
      have hcases := htail.resolve_left (by simp)
      rw [List.head?_cons, Option.some.injEq, Option.some.injEq] at hcases
      obtain rfl | rfl := hcases
      · have hmem := hcolon d chs rfl
        exact absurd rfl (hd '/' hmem).2
      · cases d with
        | nil => exact absurd rfl hslash
        | cons x xs => rfl

theorem grammar_exists (hpath : path ≠ []) : ∃ start rest, Grammar path start rest := by
  obtain ⟨d, tail, rfl, hd, htail⟩ := split_plain path
  cases tail with
  | nil =>
    rw [List.append_nil] at hpath ⊢
    refine ⟨.cwd, d, .cwd d hpath ?_ ?_⟩
    · intro hslash
      exact (hd '/' (List.mem_of_mem_head? hslash)).2 rfl
    · rintro e rest rfl
      exact absurd rfl (hd ':' (by simp)).1
  | cons ch chs =>
    have hcases := htail.resolve_left (by simp)
    rw [List.head?_cons, Option.some.injEq, Option.some.injEq] at hcases
    obtain ⟨slashes, rest, rfl, hs, hr⟩ := split_slashes chs
    obtain rfl | rfl := hcases
    · cases d with
      | nil => exact ⟨.here, rest, .here slashes rest hs hr⟩
      | cons x xs => exact ⟨.dev (x::xs), rest, .dev (x::xs) slashes rest (by simp) hd hs hr⟩
    · cases d with
      | nil => exact ⟨.boot, rest, .boot slashes rest hs hr⟩
      | cons x xs =>
        refine ⟨.cwd, _, .cwd _ (by simp) ?_ ?_⟩
        · intro hslash
          rw [List.cons_append, List.head?_cons, Option.some.injEq] at hslash
          exact (hd x List.mem_cons_self).2 hslash
        · -- a colon can only come after the slash
          intro e tail heq
          have happend : (x::xs ++ ['/']) ++ (slashes ++ rest) = e ++ ':' :: tail := by
            rw [List.append_assoc]
            exact heq
          obtain ⟨ys, hys, -⟩ | ⟨ys, hys, htail'⟩ := List.append_eq_append_iff.mp happend
          · rw [hys]
            simp
          · cases ys with
            | nil =>
              rw [List.append_nil] at hys
              rw [← hys]
              simp
            | cons y ys =>
              rw [List.cons_append, List.cons.injEq] at htail'
              have hmem : ':' ∈ x::xs ++ ['/'] := by
                rw [hys, htail'.1]
                simp
              obtain hmem | hmem := List.mem_append.mp hmem
              · exact absurd rfl (hd ':' hmem).1
              · rw [List.mem_singleton] at hmem
                exact absurd hmem (by decide)

theorem answer_settled (h : DeviceSound c kd) (d : Name) :
    kd.answer d c = (rootOf d kd).map (fun r => .ok (settle r c)) := by
  have hself : kd.device ≠ none → kd.itself c = .ok (settle (.ok kd.vnode) c) := by
    intro hdevice
    rw [KnownDev.itself, if_neg hdevice, incref_ok h.vnode]
    rfl
  have hraw : kd.rawname = some d → kd.device ≠ none := by
    intro hname hdevice
    rw [(h.device hdevice).1] at hname
    cases hname
  unfold KnownDev.answer rootOf
  cases hfs : kd.fs with
  | fs f =>
    simp only
    split_ifs with hname hrawname
    · cases hroot : f.root with
      | ok v => simp only [fsopGetroot, hroot, Option.map_some, settle]
      | error e => simp only [fsopGetroot, hroot, Option.map_some, settle]
    · rw [hself (hraw hrawname)]
      rfl
    · rfl
  | null =>
    simp only
    have hdevice : kd.device ≠ none := by
      intro hnone
      obtain ⟨f, hf⟩ := (h.device hnone).2
      rw [hfs] at hf
      cases hf
    split_ifs with hname hmountable hrawname
    · rfl
    · rw [hself hdevice]
      rfl
    · rw [hself hdevice]
      rfl
    · rfl
  | swap =>
    simp only
    split_ifs with hname hmountable hrawname
    · rfl
    · exact absurd (h.swap hfs) hmountable
    · rw [hself (hraw hrawname)]
      rfl
    · rfl

theorem getroot_settled (h : ∀ kd ∈ p.knowndevs, DeviceSound c kd) (d : Name) :
    vfsGetroot d c p.knowndevs = .ok (settle (beginning a p (.dev d)) c) := by
  show vfsGetroot d c p.knowndevs = .ok (settle ((p.knowndevs.findSome? (rootOf d)).getD (.error .enodev)) c)
  generalize p.knowndevs = devs at h ⊢
  induction devs with
  | nil => rfl
  | cons kd devs ih =>
    rw [vfsGetroot, List.findSome?_cons, answer_settled (h kd List.mem_cons_self)]
    cases hroot : rootOf d kd with
    | none => exact ih fun x hx => h x (List.mem_cons_of_mem _ hx)
    | some r => rfl

theorem getcurdir_settled (h : Sound a p c) : vfsGetcurdir p c = .ok (settle (beginning a p .cwd) c) := by
  unfold vfsGetcurdir beginning
  cases hcwd : p.cwd with
  | none => rfl
  | some v =>
    simp only [incref_ok (h.cwd v hcwd).1]
    rfl

theorem currentRoot_settled (h : Sound a p c) : currentRoot a p c = .ok (settle (beginning a p .here) c) := by
  unfold currentRoot
  rw [getcurdir_settled h]
  unfold beginning
  cases hcwd : p.cwd with
  | none => rfl
  | some v =>
    obtain ⟨f, hf⟩ := Option.ne_none_iff_exists'.mp (h.cwd v hcwd).2
    simp only [settle, hf, fsopGetroot]
    cases hroot : f.root with
    | ok r => simp only [decref_acquired_acquired]
    | error e => simp only [decref_acquired]

/-- Whatever a path begins at is handed out with one reference. -/
theorem startVnode_settled (h : Sound a p c) (start : Start) :
    startVnode a p c start = .ok (settle (beginning a p start) c) := by
  cases start with
  | dev d => exact getroot_settled h.devices d
  | boot =>
    unfold startVnode bootRoot beginning
    cases hboot : p.bootfs with
    | none => rfl
    | some v =>
      simp only [incref_ok (h.boot v hboot)]
      rfl
  | here => exact currentRoot_settled h
  | cwd => exact getcurdir_settled h

/-- Once the start and the rest are known. -/
theorem vfsLookup_of (h : Sound a p c) (hpath : path ≠ []) (hparsed : parsed path = (start, rest)) :
    vfsLookup a p path c = .ok (settle (found a p start rest) c) := by
  unfold vfsLookup found
  rw [getdevice_parsed a p c hpath, hparsed, startVnode_settled h]
  cases hbegin : beginning a p start with
  | error e => rfl
  | ok v =>
    simp only [settle]
    by_cases hrest : rest = []
    · rw [if_pos hrest, if_pos hrest]
    · rw [if_neg hrest, if_neg hrest]
      cases hlookup : a.lookup v rest with
      | ok r => simp only [decref_acquired_acquired]
      | error e => simp only [decref_acquired]

theorem vfsLookparent_of (h : Sound a p c) (hpath : path ≠ []) (hparsed : parsed path = (start, rest)) (buflen : ℕ) :
    vfsLookparent a p path buflen c = .ok (settleParent (foundParent a p start rest buflen) c) := by
  unfold vfsLookparent foundParent
  rw [getdevice_parsed a p c hpath, hparsed, startVnode_settled h]
  cases hbegin : beginning a p start with
  | error e => rfl
  | ok v =>
    simp only [settle]
    by_cases hrest : rest = []
    · simp only [if_pos hrest, decref_acquired, settleParent]
    · simp only [if_neg hrest]
      cases hlookup : a.lookparent v rest buflen with
      | ok r => simp only [settleParent, decref_acquired_acquired]
      | error e => simp only [settleParent, decref_acquired]

/-- Every device of the table is sound. -/
def Devices (s : State) : Prop := ∀ kd ∈ s.knowndevs, DeviceSound s.refs kd

/-- A device that is added is there. -/
def Real : Action → State → Prop
  | .adddev _ dev _ _, _ => dev ≠ none
  | _, _ => True

theorem DeviceSound.more {c' : Refcounts} (h : DeviceSound c kd) (hc : ∀ v, c v ≠ 0 → c' v ≠ 0) : DeviceSound c' kd :=
  ⟨hc _ h.vnode, h.device, h.swap⟩

theorem doadd_devices {s s' : State} {dname : Name} {mountable : Bool} {dev : Option ℕ} {fs : Mounted} {mem : Memory}
    {r : Except Errno Unit} (h : Devices s) (hdev : dev = none → mountable = false ∧ ∃ f, fs = .fs f) (hfs : fs ≠ .swap)
    (hs : vfsDoadd dname mountable dev fs mem s = .ok (r, s')) : Devices s' := by
  have hplain : dev = none → (if mountable then some (mkrawname dname) else none) = none := by
    intro hnone
    rw [(hdev hnone).1]
    rfl
  simp only [vfsDoadd] at hs
  generalize (if mountable = true then some (mkrawname dname) else none) = rawname at hplain hs
  have hnew : ∀ kd ∈ s.knowndevs ++ [⟨dname, rawname, dev, s.nextVnode, fs⟩],
      DeviceSound (update s.refs s.nextVnode 1) kd := by
    have hmore : ∀ v, s.refs v ≠ 0 → update s.refs s.nextVnode 1 v ≠ 0 := by
      intro v hv
      rw [update_apply]
      split_ifs
      · exact Nat.one_ne_zero
      · exact hv
    intro kd hkd
    obtain hold | hadded := List.mem_append.mp hkd
    · exact (h kd hold).more hmore
    · rw [List.mem_singleton] at hadded
      subst hadded
      exact ⟨by simp, fun hnone => ⟨hplain hnone, (hdev hnone).2⟩, fun hswap => absurd hswap hfs⟩
  split_ifs at hs
  all_goals
    cases hs
    first
      | exact h
      | exact hnew

/-- What is mounted on a device can be exchanged, if the device is there. -/
theorem setFs_devices {s : State} {c' : Refcounts} {m : Mounted} (h : Devices s)
    (hkd : findmount d s.knowndevs = some (i, kd)) (hdevice : kd.device ≠ none) (hc : ∀ v, s.refs v ≠ 0 → c' v ≠ 0) :
    Devices { s.setFs i kd m with refs := c' } := by
  intro x hx
  obtain hold | hset := List.mem_or_eq_of_mem_set hx
  · exact (h x hold).more hc
  · obtain ⟨hget, hraw, -⟩ := findmount_some hkd
    rw [hset]
    exact ⟨hc _ (h kd (List.mem_of_getElem? hget)).vnode, fun hnone => absurd hnone hdevice, fun _ => hraw⟩

theorem mounted_device {s : State} (h : Devices s) (hkd : findmount d s.knowndevs = some (i, kd)) : kd.device ≠ none := by
  obtain ⟨hget, hraw, -⟩ := findmount_some hkd
  intro hnone
  exact hraw ((h kd (List.mem_of_getElem? hget)).device hnone).1

theorem step_devices {s s' : State} {x : Action} (h : Devices s) (hreal : Real x s) (hs : step x s = .ok s') :
    Devices s' := by
  obtain ⟨r, hcall⟩ := step_ok hs
  have hkeep : ∀ v, s.refs v ≠ 0 → s.refs v ≠ 0 := fun _ hv => hv
  cases x with
  | adddev devname dev mountable mem =>
    exact doadd_devices h (fun hnone => absurd hnone hreal) (by simp) hcall
  | addfs devname fs mem => exact doadd_devices h (fun _ => ⟨rfl, fs, rfl⟩) (by simp) hcall
  | mount devname mountfunc =>
    simp only [call, vfsMount] at hcall
    cases hf : findmount devname s.knowndevs with
    | none =>
      simp only [hf] at hcall
      cases hcall
      exact h
    | some found =>
      obtain ⟨i, kd⟩ := found
      cases hfs : kd.fs <;> simp only [hf, hfs] at hcall
      case null =>
        split_ifs at hcall
        cases mountfunc with
        | error e =>
          cases hcall
          exact h
        | ok f =>
          cases hcall
          exact setFs_devices h hf (mounted_device h hf) hkeep
      all_goals
        cases hcall
        exact h
  | unmount devname sync unmount =>
    simp only [call, vfsUnmount] at hcall
    cases hf : findmount devname s.knowndevs with
    | none =>
      simp only [hf] at hcall
      cases hcall
      exact h
    | some found =>
      obtain ⟨i, kd⟩ := found
      cases hfs : kd.fs <;> simp only [hf, hfs] at hcall
      case fs f =>
        split_ifs at hcall
        cases sync with
        | some e =>
          cases hcall
          exact h
        | none =>
          cases unmount with
          | some e =>
            cases hcall
            exact h
          | none =>
            cases hcall
            exact setFs_devices h hf (mounted_device h hf) hkeep
      all_goals
        cases hcall
        exact h
  | swapon devname mem =>
    simp only [call, vfsSwapon] at hcall
    split_ifs at hcall
    · cases hcall
      exact h
    · cases hf : findmount (uncolon devname) s.knowndevs with
      | none =>
        simp only [hf] at hcall
        cases hcall
        exact h
      | some found =>
        obtain ⟨i, kd⟩ := found
        cases hfs : kd.fs <;> simp only [hf, hfs] at hcall
        case null =>
          split_ifs at hcall
          cases hincref : vnodeIncref kd.vnode s.refs with
          | error stop => simp [hincref] at hcall
          | ok c' =>
            simp only [hincref, Except.ok.injEq, Prod.mk.injEq] at hcall
            rw [← hcall.2]
            refine setFs_devices h hf (mounted_device h hf) fun v hv => ?_
            unfold vnodeIncref at hincref
            split_ifs at hincref
            cases hincref
            rw [update_apply]
            split_ifs <;> omega
        all_goals
          cases hcall
          exact h
  | swapoff devname =>
    simp only [call, vfsSwapoff] at hcall
    cases hf : findmount devname s.knowndevs with
    | none =>
      simp only [hf] at hcall
      cases hcall
      exact h
    | some found =>
      obtain ⟨i, kd⟩ := found
      cases hfs : kd.fs <;> simp only [hf, hfs] at hcall
      case swap =>
        cases hcall
        exact setFs_devices h hf (mounted_device h hf) hkeep
      all_goals
        cases hcall
        exact h

/-- Whatever has been added, mounted, unmounted or used for swap. -/
theorem run_devices {as : List Action} {s : State} (hg : Guarded step Real as vfsBootstrap)
    (hr : run step as vfsBootstrap = .ok s) : Devices s :=
  guarded_invariant (fun _ _ _ hi hreal hs => step_devices hi hreal hs) hg
    (fun _ hkd => absurd hkd List.not_mem_nil) hr

/-- Paths are resolved by the grammar, and the vnode that is returned has one reference more. -/
theorem lookup_follows (a : Answers) (p : Places) (c : Refcounts) (h : Sound a p c) (path : Name) (buflen : ℕ) :
    (path = [] → vfsLookup a p path c = .ok (.error .einval, c) ∧
      vfsLookparent a p path buflen c = .ok (.error .einval, c)) ∧
    (path ≠ [] → ∃ start rest, Grammar path start rest ∧
      (∀ start' rest', Grammar path start' rest' → start' = start ∧ rest' = rest) ∧
      vfsLookup a p path c = .ok (settle (found a p start rest) c) ∧
      vfsLookparent a p path buflen c = .ok (settleParent (foundParent a p start rest buflen) c)) := by
  constructor
  · rintro rfl
    exact ⟨rfl, rfl⟩
  · intro hpath
    obtain ⟨start, rest, hg⟩ := grammar_exists hpath
    have hparsed := grammar_parsed hg
    refine ⟨start, rest, hg, ?_, vfsLookup_of h hpath hparsed, vfsLookparent_of h hpath hparsed buflen⟩
    intro start' rest' hg'
    have hparsed' := grammar_parsed hg'
    rw [hparsed, Prod.mk.injEq] at hparsed'
    exact ⟨hparsed'.1.symm, hparsed'.2.symm⟩

/-- A disk with one file, and the current directory on it. -/
def disk : Places := ⟨[⟨['d'], none, some 0, 2, .fs ⟨none, .ok 1⟩⟩], some 1, some 1⟩

def diskAnswers : Answers :=
  ⟨fun _ => some ⟨none, .ok 1⟩, fun _ _ => .ok 7, fun dir name _ => .ok (dir, name)⟩

theorem disk_sound : Sound diskAnswers disk fun _ => 1 where
  devices := by
    intro kd hkd
    have hdev : kd = ⟨['d'], none, some 0, 2, .fs ⟨none, .ok 1⟩⟩ := List.mem_singleton.mp hkd
    rw [hdev]
    exact ⟨Nat.one_ne_zero, by simp, by simp⟩
  boot := fun _ _ => Nat.one_ne_zero
  cwd := fun _ _ => ⟨Nat.one_ne_zero, by simp [diskAnswers]⟩

/-- The file, by the name of the disk. -/
theorem disk_followed : vfsLookup diskAnswers disk ['d', ':', '/', '/', 'x'] (fun _ => 1) =
    .ok (.ok 7, acquired 7 fun _ => 1) := by
  obtain ⟨start, rest, -, hunique, hlookup, -⟩ :=
    (lookup_follows diskAnswers disk (fun _ => 1) disk_sound ['d', ':', '/', '/', 'x'] 0).2 (by simp)
  have hg : Grammar ['d', ':', '/', '/', 'x'] (.dev ['d']) ['x'] :=
    .dev ['d'] ['/', '/'] ['x'] (by simp) (by simp [Plain]) (by simp [Slashes]) (by simp)
  obtain ⟨rfl, rfl⟩ := hunique _ _ hg
  exact hlookup

end OS161.VfsLookup
