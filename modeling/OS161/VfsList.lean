import OS161.Runs
import OS161.Vfs
import Mathlib.Data.List.Basic
import Mathlib.Data.List.Perm.Basic

/-!
# The table of devices that have names

A device is known by its name, a mountable one also by its raw name, and
whatever is mounted on it by its volume name. `vfs_doadd` looks a new device's
names up among those in use. `vfs_mount` brings in a name as well, the one the
volume carries, and does not look it up: from then on `vfs_getroot` may find
two devices under one name, and takes the one that was added first. What the
file systems and the allocator answer is supplied with each call.
-/

set_option autoImplicit false

namespace OS161.VfsList

open OS161.Vfs OS161.Runs Function

abbrev Name := List Char

/-- A `struct fs` by its answers to `FSOP_GETVOLNAME` and `FSOP_GETROOT`. -/
structure Fs where
  volname : Option Name
  root : Except Errno ℕ

/-- What `kd_fs` points to; `swap` is `SWAP_FS`. -/
inductive Mounted where
  | null
  | swap
  | fs (f : Fs)

structure KnownDev where
  name : Name
  rawname : Option Name
  device : Option ℕ
  vnode : ℕ
  fs : Mounted

structure State where
  knowndevs : List KnownDev
  refs : Refcounts
  nextVnode : ℕ

/-- Which of the allocations of `vfs_doadd` succeed. -/
structure Memory where
  name : Bool
  rawname : Bool
  vnode : Bool
  kd : Bool
  slot : Bool

inductive Action where
  | adddev (devname : Name) (dev : Option ℕ) (mountable : Bool) (mem : Memory)
  | addfs (devname : Name) (fs : Fs) (mem : Memory)
  | mount (devname : Name) (mountfunc : Except Errno Fs)
  | unmount (devname : Name) (sync unmount : Option Errno)
  | swapon (devname : Name) (mem : Bool)
  | swapoff (devname : Name)

abbrev Outcome := Except Stop (Except Errno Unit × State)

def mkrawname (name : Name) : Name := name ++ ['r', 'a', 'w']

/-- `FSOP_GETVOLNAME` of what is mounted, if anything is. -/
def Mounted.volname : Mounted → Option Name
  | .fs f => f.volname
  | _ => none

def samestring : Option Name → Option Name → Bool
  | some a, some b => decide (a = b)
  | _, _ => false

def samestring3 (a b c d : Option Name) : Bool := samestring a b || samestring a c || samestring a d

def badnames (n1 n2 n3 : Option Name) (knowndevs : List KnownDev) : Bool :=
  knowndevs.any (fun kd => samestring3 kd.fs.volname n1 n2 n3 || samestring3 kd.rawname n1 n2 n3 ||
    samestring3 (some kd.name) n1 n2 n3)

/-- What has been allocated is given back on every path that fails. -/
def vfsDoadd (dname : Name) (mountable : Bool) (dev : Option ℕ) (fs : Mounted) (mem : Memory) (s : State) :
    Outcome :=
  let rawname := if mountable then some (mkrawname dname) else none
  if !mem.name then .ok (.error .enomem, s)
  else if mountable && !mem.rawname then .ok (.error .enomem, s)
  else if !mem.vnode then .ok (.error .enomem, s)
  else if !mem.kd then .ok (.error .enomem, s)
  else if badnames (some dname) rawname fs.volname s.knowndevs then .ok (.error .eexist, s)
  else if !mem.slot then .ok (.error .enomem, s)
  else .ok (.ok (), {
    knowndevs := s.knowndevs ++ [⟨dname, rawname, dev, s.nextVnode, fs⟩]
    refs := update s.refs s.nextVnode 1
    nextVnode := s.nextVnode+1 })

def vfsAdddev (devname : Name) (dev : Option ℕ) (mountable : Bool) (mem : Memory) (s : State) : Outcome :=
  vfsDoadd devname mountable dev .null mem s

def vfsAddfs (devname : Name) (fs : Fs) (mem : Memory) (s : State) : Outcome :=
  vfsDoadd devname false none (.fs fs) mem s

/-- The first mountable device of this name, with its index. -/
def findmount (devname : Name) : List KnownDev → Option (ℕ × KnownDev)
  | [] => none
  | kd::kds =>
    if kd.rawname ≠ none ∧ devname = kd.name then some (0, kd)
    else (findmount devname kds).map (fun found => (found.1+1, found.2))

/-- `kd->kd_fs = fs`. -/
def State.setFs (s : State) (i : ℕ) (kd : KnownDev) (fs : Mounted) : State :=
  { s with knowndevs := s.knowndevs.set i { kd with fs := fs } }

def vfsMount (devname : Name) (mountfunc : Except Errno Fs) (s : State) : Outcome :=
  match findmount devname s.knowndevs with
  | none => .ok (.error .enodev, s)
  | some (i, kd) =>
    match kd.fs with
    | .null =>
      if kd.rawname = none ∨ kd.device = none then .error .panic
      else match mountfunc with
        | .error e => .ok (.error e, s)
        | .ok fs => .ok (.ok (), s.setFs i kd (.fs fs))
    | _ => .ok (.error .ebusy, s)

/-- A trailing colon is tolerated. -/
def uncolon (devname : Name) : Name :=
  if devname.getLast? = some ':' then devname.dropLast else devname

def vfsSwapon (devname : Name) (mem : Bool) (s : State) : Outcome :=
  if devname.getLast? = some ':' ∧ !mem then .ok (.error .enomem, s)
  else match findmount (uncolon devname) s.knowndevs with
    | none => .ok (.error .enodev, s)
    | some (i, kd) =>
      match kd.fs with
      | .null =>
        if kd.rawname = none ∨ kd.device = none then .error .panic
        else match vnodeIncref kd.vnode s.refs with
          | .error e => .error e
          | .ok refs => .ok (.ok (), { s.setFs i kd .swap with refs := refs })
      | _ => .ok (.error .ebusy, s)

def vfsUnmount (devname : Name) (sync unmount : Option Errno) (s : State) : Outcome :=
  match findmount devname s.knowndevs with
  | none => .ok (.error .enodev, s)
  | some (i, kd) =>
    match kd.fs with
    | .fs _ =>
      if kd.rawname = none ∨ kd.device = none then .error .panic
      else match sync with
        | some e => .ok (.error e, s)
        | none =>
          match unmount with
          | some e => .ok (.error e, s)
          | none => .ok (.ok (), s.setFs i kd .null)
    | _ => .ok (.error .einval, s)

def vfsSwapoff (devname : Name) (s : State) : Outcome :=
  match findmount devname s.knowndevs with
  | none => .ok (.error .enodev, s)
  | some (i, kd) =>
    match kd.fs with
    | .swap => .ok (.ok (), s.setFs i kd .null)
    | _ => .ok (.error .einval, s)

def call : Action → State → Outcome
  | .adddev devname dev mountable mem, s => vfsAdddev devname dev mountable mem s
  | .addfs devname fs mem, s => vfsAddfs devname fs mem s
  | .mount devname mountfunc, s => vfsMount devname mountfunc s
  | .unmount devname sync unmount, s => vfsUnmount devname sync unmount s
  | .swapon devname mem, s => vfsSwapon devname mem s
  | .swapoff devname, s => vfsSwapoff devname s

def step (a : Action) (s : State) : Except Stop State := (call a s).map Prod.snd

/-- `vfs_bootstrap` makes an empty table; its first devices are added by calls. -/
def vfsBootstrap : State := ⟨[], fun _ => 0, 0⟩

abbrev Root := Except Stop (Except Errno ℕ × Refcounts)

def fsopGetroot (f : Fs) (c : Refcounts) : Root :=
  match f.root with
  | .ok v => .ok (.ok v, acquired v c)
  | .error e => .ok (.error e, c)

/-- `VOP_INCREF(kd->kd_vnode)` and `*ret = kd->kd_vnode`. -/
def KnownDev.itself (kd : KnownDev) (c : Refcounts) : Root :=
  if kd.device = none then .error .panic
  else match vnodeIncref kd.vnode c with
    | .ok c' => .ok (.ok kd.vnode, c')
    | .error e => .error e

/-- One turn of the loop of `vfs_getroot`: what it returns, if `devname` names this device. -/
def KnownDev.answer (devname : Name) (c : Refcounts) (kd : KnownDev) : Option Root :=
  match kd.fs with
  | .fs f =>
    if kd.name = devname ∨ f.volname = some devname then some (fsopGetroot f c)
    else if kd.rawname = some devname then some (kd.itself c)
    else none
  | .null =>
    if kd.name = devname then
      some (if kd.rawname ≠ none then .ok (.error .enxio, c) else kd.itself c)
    else if kd.rawname = some devname then some (kd.itself c)
    else none
  | .swap =>
    if kd.name = devname then
      some (if kd.rawname ≠ none then .ok (.error .enxio, c) else .error .panic)
    else if kd.rawname = some devname then some (kd.itself c)
    else none

def vfsGetroot (devname : Name) (c : Refcounts) : List KnownDev → Root
  | [] => .ok (.error .enodev, c)
  | kd::kds =>
    match kd.answer devname c with
    | some r => r
    | none => vfsGetroot devname c kds

/-- `n` is one of the names of this device. -/
def KnownDev.Named (kd : KnownDev) (n : Name) : Prop :=
  kd.name = n ∨ kd.rawname = some n ∨ kd.fs.volname = some n

instance (kd : KnownDev) (n : Name) : Decidable (kd.Named n) := by
  unfold KnownDev.Named
  infer_instance

/-- No string names two devices of the table. -/
def Apart (knowndevs : List KnownDev) : Prop :=
  ∀ (i j : ℕ) (a b : KnownDev) (n : Name), knowndevs[i]? = some a → knowndevs[j]? = some b →
    a.Named n → b.Named n → i = j

/-- The names as they are meant: each belongs to one device, and what
`vfs_getroot` returns for it does not depend on the order of the table. -/
structure NamesRight (s : State) : Prop where
  apart : Apart s.knowndevs
  getroot : ∀ n c devs, devs.Perm s.knowndevs → vfsGetroot n c devs = vfsGetroot n c s.knowndevs

/-- The condition on a step: the volume name that a mount brings in names no
other device. -/
def Fresh : Action → State → Prop
  | .mount devname (.ok fs), s => ∀ i kd v, findmount devname s.knowndevs = some (i, kd) →
      kd.fs = .null → kd.device ≠ none → fs.volname = some v →
      ∀ (j : ℕ) d, s.knowndevs[j]? = some d → j ≠ i → ¬d.Named v
  | _, _ => True

variable {s s' : State} {devs devs' : List KnownDev} {kd kd' : KnownDev} {n v devname : Name} {i : ℕ}

theorem findmount_some (h : findmount devname devs = some (i, kd)) :
    devs[i]? = some kd ∧ kd.rawname ≠ none ∧ devname = kd.name := by
  induction devs generalizing i with
  | nil => cases h
  | cons d devs ih =>
    rw [findmount] at h
    split at h
    · next hd =>
      cases h
      exact ⟨rfl, hd⟩
    · obtain ⟨⟨j, e⟩, hj, he⟩ := Option.map_eq_some_iff.mp h
      cases he
      exact ih hj

theorem samestring3_false {a : Option Name} {b c d : Option Name} (h : samestring3 a b c d = false) (ha : a = some n) :
    b ≠ some n ∧ c ≠ some n ∧ d ≠ some n := by
  subst ha
  have hsame : ∀ x, samestring (some n) x = false → x ≠ some n := by
    rintro x hx rfl
    simp [samestring] at hx
  simp only [samestring3, Bool.or_eq_false_iff] at h
  exact ⟨hsame b h.1.1, hsame c h.1.2, hsame d h.2⟩

/-- What `badnames` lets through is named nowhere in the table. -/
theorem badnames_false (h : badnames (some kd'.name) kd'.rawname kd'.fs.volname devs = false) (hkd : kd ∈ devs)
    (hn : kd.Named n) : ¬kd'.Named n := by
  have hno := List.any_eq_false.mp h kd hkd
  simp only [Bool.not_eq_true, Bool.or_eq_false_iff] at hno
  obtain ⟨⟨hvol, hraw⟩, hname⟩ := hno
  have hall : some kd'.name ≠ some n ∧ kd'.rawname ≠ some n ∧ kd'.fs.volname ≠ some n := by
    rcases hn with hn | hn | hn
    · exact samestring3_false hname (by rw [hn])
    · exact samestring3_false hraw hn
    · exact samestring3_false hvol hn
  rintro (hk | hk | hk)
  · exact hall.1 (by rw [hk])
  · exact hall.2.1 hk
  · exact hall.2.2 hk

theorem Apart.append (h : Apart devs) (hnew : ∀ d ∈ devs, ∀ n, d.Named n → ¬kd.Named n) : Apart (devs ++ [kd]) := by
  have hcases : ∀ (j : ℕ) d, (devs ++ [kd])[j]? = some d → devs[j]? = some d ∨ j = devs.length ∧ d = kd := by
    intro j d hj
    rcases Nat.lt_trichotomy j devs.length with hlt | heq | hgt
    · rw [List.getElem?_append_left hlt] at hj
      exact .inl hj
    · rw [heq, List.getElem?_concat_length] at hj
      exact .inr ⟨heq, (Option.some.inj hj).symm⟩
    · rw [List.getElem?_eq_none (by simp; omega)] at hj
      cases hj
  intro i j a b n hi hj ha hb
  rcases hcases i a hi with hia | ⟨hil, rfl⟩
  · rcases hcases j b hj with hjb | ⟨-, rfl⟩
    · exact h i j a b n hia hjb ha hb
    · exact absurd hb (hnew a (List.mem_of_getElem? hia) n ha)
  · rcases hcases j b hj with hjb | ⟨hjl, -⟩
    · exact absurd ha (hnew b (List.mem_of_getElem? hjb) n hb)
    · rw [hil, hjl]

/-- A device may take on names that no other device has. -/
theorem Apart.set (h : Apart devs) (hkd : devs[i]? = some kd)
    (hnew : ∀ n, kd'.Named n → kd.Named n ∨ ∀ (j : ℕ) d, devs[j]? = some d → j ≠ i → ¬d.Named n) :
    Apart (devs.set i kd') := by
  have hother : ∀ (j : ℕ) a b n, j ≠ i → devs[j]? = some a → a.Named n → kd'.Named n → b = i → j = b := by
    rintro j a b n hji hj ha hk rfl
    rcases hnew n hk with hk | hk
    · exact h j b a kd n hj hkd ha hk
    · exact absurd ha (hk j a hj hji)
  intro j k a b n hj hk ha hb
  by_cases hji : j = i <;> by_cases hki : k = i
  · rw [hji, hki]
  · rw [List.getElem?_set_ne (Ne.symm hki)] at hk
    rw [hji, List.getElem?_set_self (List.getElem?_eq_some_iff.mp hkd).1] at hj
    cases hj
    exact (hother k b j n hki hk hb ha hji).symm
  · rw [List.getElem?_set_ne (Ne.symm hji)] at hj
    rw [hki, List.getElem?_set_self (List.getElem?_eq_some_iff.mp hkd).1] at hk
    cases hk
    exact hother j a k n hji hj ha hb hki
  · rw [List.getElem?_set_ne (Ne.symm hji)] at hj
    rw [List.getElem?_set_ne (Ne.symm hki)] at hk
    exact h j k a b n hj hk ha hb

theorem answer_named {c : Refcounts} {r : Root} (h : kd.answer n c = some r) : kd.Named n := by
  unfold KnownDev.answer at h
  unfold KnownDev.Named
  split at h <;> grind [Mounted.volname]

theorem getroot_findSome (c : Refcounts) :
    vfsGetroot n c devs = (devs.findSome? (KnownDev.answer n c)).getD (.ok (.error .enodev, c)) := by
  induction devs with
  | nil => rfl
  | cons kd devs ih =>
    rw [vfsGetroot, List.findSome?_cons]
    cases kd.answer n c with
    | none => exact ih
    | some r => rfl

/-- A search that can succeed at one place only does not depend on the order. -/
theorem findSome?_perm {α β : Type*} {f : α → Option β} {l l' : List α} (hp : l.Perm l')
    (hone : l.Pairwise (fun a b => f a = none ∨ f b = none)) : l.findSome? f = l'.findSome? f := by
  induction hp with
  | nil => rfl
  | cons a _ ih =>
    rw [List.findSome?_cons, List.findSome?_cons, ih (List.pairwise_cons.mp hone).2]
  | swap a b l =>
    have hab := (List.pairwise_cons.mp hone).1 a List.mem_cons_self
    rcases hab with hn | hn <;> simp [List.findSome?_cons, hn]
  | trans h _ ih ih' =>
    rw [ih hone]
    exact ih' ((h.pairwise_iff (fun h => h.symm)).mp hone)

theorem Apart.getroot (h : Apart devs) (c : Refcounts) (hp : devs'.Perm devs) :
    vfsGetroot n c devs' = vfsGetroot n c devs := by
  have hone : devs.Pairwise (fun a b => a.answer n c = none ∨ b.answer n c = none) := by
    rw [List.pairwise_iff_getElem]
    intro i j hi hj hij
    by_contra hboth
    obtain ⟨ha, hb⟩ := not_or.mp hboth
    obtain ⟨r, ha⟩ := Option.ne_none_iff_exists'.mp ha
    obtain ⟨q, hb⟩ := Option.ne_none_iff_exists'.mp hb
    have := h i j _ _ n (List.getElem?_eq_getElem hi) (List.getElem?_eq_getElem hj) (answer_named ha)
      (answer_named hb)
    omega
  rw [getroot_findSome, getroot_findSome, findSome?_perm hp.symm hone]

theorem namesRight_iff : NamesRight s ↔ Apart s.knowndevs :=
  ⟨fun h => h.apart, fun h => ⟨h, fun _ c _ hp => h.getroot c hp⟩⟩

/-- The step of a call that returns. -/
theorem step_ok {a : Action} (h : step a s = .ok s') : ∃ r, call a s = .ok (r, s') := by
  unfold step at h
  cases hc : call a s with
  | error e => simp [hc, Except.map] at h
  | ok x =>
    simp only [hc, Except.map, Except.ok.injEq] at h
    exact ⟨x.1, by rw [← h]⟩

theorem doadd_apart {mountable : Bool} {dev : Option ℕ} {fs : Mounted} {mem : Memory} {r : Except Errno Unit}
    (h : Apart s.knowndevs) (hs : vfsDoadd devname mountable dev fs mem s = .ok (r, s')) : Apart s'.knowndevs := by
  simp only [vfsDoadd] at hs
  generalize (if mountable = true then some (mkrawname devname) else none) = rawname at hs
  by_cases hbad : badnames (some devname) rawname fs.volname s.knowndevs = true
  · simp only [if_pos hbad] at hs
    repeat' split at hs
    all_goals
      cases hs
      exact h
  · have hnew : Apart (s.knowndevs ++ [⟨devname, rawname, dev, s.nextVnode, fs⟩]) := by
      apply h.append
      intro d hd n hn
      exact badnames_false (by simpa using hbad) hd hn
    simp only [if_neg hbad] at hs
    repeat' split at hs
    all_goals
      cases hs
      first
        | exact h
        | exact hnew

/-- A device that is unmounted, or used for swap, loses names at most. -/
theorem setFs_apart {m : Mounted} (h : Apart s.knowndevs) (hkd : findmount devname s.knowndevs = some (i, kd))
    (hm : m.volname = none) : Apart (s.setFs i kd m).knowndevs := by
  apply h.set (findmount_some hkd).1
  rintro n (hn | hn | hn)
  · exact .inl (.inl hn)
  · exact .inl (.inr (.inl hn))
  · rw [show ({ kd with fs := m } : KnownDev).fs.volname = m.volname from rfl, hm] at hn
    cases hn

theorem mounted_apart {f : Fs} (h : Apart s.knowndevs) (hkd : findmount devname s.knowndevs = some (i, kd)) :
    Apart (s.setFs i kd (.fs f)).knowndevs ↔ ∀ v, f.volname = some v →
      ∀ (j : ℕ) d, s.knowndevs[j]? = some d → j ≠ i → ¬d.Named v := by
  have hi := (findmount_some hkd).1
  constructor
  · intro hap v hv j d hj hji hd
    have hself : (s.setFs i kd (.fs f)).knowndevs[i]? = some { kd with fs := .fs f } :=
      List.getElem?_set_self (List.getElem?_eq_some_iff.mp hi).1
    have hother : (s.setFs i kd (.fs f)).knowndevs[j]? = some d := by
      simp only [State.setFs, List.getElem?_set_ne (Ne.symm hji), hj]
    exact hji (hap j i d _ v hother hself hd (.inr (.inr hv)))
  · intro hfree
    apply h.set hi
    rintro n (hn | hn | hn)
    · exact .inl (.inl hn)
    · exact .inl (.inr (.inl hn))
    · exact .inr (hfree n hn)

theorem fresh_busy {m : Except Errno Fs} (hkd : findmount devname s.knowndevs = some (i, kd)) (hfs : kd.fs ≠ .null) :
    Fresh (.mount devname m) s := by
  cases m with
  | error e => trivial
  | ok f =>
    intro j d v hd hnull
    rw [hkd] at hd
    cases hd
    exact absurd hnull hfs

theorem mount_apart {m : Except Errno Fs} {r : Except Errno Unit} (h : Apart s.knowndevs)
    (hs : vfsMount devname m s = .ok (r, s')) : Fresh (.mount devname m) s ↔ Apart s'.knowndevs := by
  unfold vfsMount at hs
  cases hf : findmount devname s.knowndevs with
  | none =>
    simp only [hf] at hs
    cases hs
    cases m <;> simp [Fresh, hf, h]
  | some found =>
    obtain ⟨i, kd⟩ := found
    simp only [hf] at hs
    cases hfs : kd.fs with
    | null =>
      simp only [hfs] at hs
      split at hs
      · cases hs
      · next hdev =>
        cases m with
        | error e =>
          cases hs
          simp [Fresh, h]
        | ok f =>
          cases hs
          rw [mounted_apart h hf]
          simp only [Fresh, hf, Option.some.injEq, Prod.mk.injEq]
          have hd : kd.device ≠ none := fun hd => hdev (.inr hd)
          constructor
          · intro hfresh v hv
            exact hfresh i kd v ⟨rfl, rfl⟩ hfs hd hv
          · rintro hfree i' kd' v ⟨rfl, rfl⟩ - - hv
            exact hfree v hv
    | swap =>
      simp only [hfs] at hs
      cases hs
      exact iff_of_true (fresh_busy hf (by simp [hfs])) h
    | fs f =>
      simp only [hfs] at hs
      cases hs
      exact iff_of_true (fresh_busy hf (by simp [hfs])) h

theorem unmount_apart {sync unmount : Option Errno} {r : Except Errno Unit} (h : Apart s.knowndevs)
    (hs : vfsUnmount devname sync unmount s = .ok (r, s')) : Apart s'.knowndevs := by
  unfold vfsUnmount at hs
  cases hf : findmount devname s.knowndevs with
  | none =>
    simp only [hf] at hs
    cases hs
    exact h
  | some found =>
    have hnull := setFs_apart (m := .null) h hf rfl
    simp only [hf] at hs
    repeat' split at hs
    all_goals cases hs <;> first
      | exact h
      | exact hnull

theorem swapon_apart {mem : Bool} {r : Except Errno Unit} (h : Apart s.knowndevs)
    (hs : vfsSwapon devname mem s = .ok (r, s')) : Apart s'.knowndevs := by
  unfold vfsSwapon at hs
  cases hf : findmount (uncolon devname) s.knowndevs with
  | none =>
    simp only [hf] at hs
    split at hs
    all_goals
      cases hs
      exact h
  | some found =>
    have hswap := setFs_apart (m := .swap) h hf rfl
    simp only [hf] at hs
    repeat' split at hs
    all_goals cases hs <;> first
      | exact h
      | exact hswap

theorem swapoff_apart {r : Except Errno Unit} (h : Apart s.knowndevs)
    (hs : vfsSwapoff devname s = .ok (r, s')) : Apart s'.knowndevs := by
  unfold vfsSwapoff at hs
  cases hf : findmount devname s.knowndevs with
  | none =>
    simp only [hf] at hs
    cases hs
    exact h
  | some found =>
    have hnull := setFs_apart (m := .null) h hf rfl
    simp only [hf] at hs
    split at hs
    all_goals
      cases hs
      first
        | exact h
        | exact hnull

/-- A call leaves every name with one device exactly if it is not the mount of
a volume whose name is taken. -/
theorem step_apart {a : Action} (h : Apart s.knowndevs) (hs : step a s = .ok s') :
    Fresh a s ↔ Apart s'.knowndevs := by
  obtain ⟨r, hc⟩ := step_ok hs
  cases a with
  | adddev devname dev mountable mem => exact iff_of_true trivial (doadd_apart h hc)
  | addfs devname fs mem => exact iff_of_true trivial (doadd_apart h hc)
  | mount devname m => exact mount_apart h hc
  | unmount devname sync unmount => exact iff_of_true trivial (unmount_apart h hc)
  | swapon devname mem => exact iff_of_true trivial (swapon_apart h hc)
  | swapoff devname => exact iff_of_true trivial (swapoff_apart h hc)

/-- A mount that fails an assertion is of a device that has no device. -/
theorem step_stops {a : Action} {e : Stop} (hs : step a s = .error e) : Fresh a s := by
  cases a with
  | mount devname m =>
    cases m with
    | error e => trivial
    | ok f =>
      intro i kd v hf hfs hdev hv
      have hraw := (findmount_some hf).2.1
      simp [step, call, vfsMount, hf, hfs, hdev, hraw, Except.map] at hs
  | _ => trivial

/-- In every state that a sequence of calls leads through each name belongs to
one device, exactly if no volume is mounted whose name is taken. -/
theorem names_right (as : List Action) :
    Guarded step Fresh as vfsBootstrap ↔
      ∀ bs, bs <+: as → ∀ t, run step bs vfsBootstrap = .ok t → NamesRight t := by
  simp only [namesRight_iff]
  apply guarded_iff_prefixes (fun a s s' h hs => step_apart h hs) (fun a s e _ hs => step_stops hs)
  intro i j a b n hi
  cases hi

/-- Two disks that carry the same volume name. -/
def twins : List Action :=
  [.adddev ['d'] (some 0) true ⟨true, true, true, true, true⟩,
    .adddev ['e'] (some 1) true ⟨true, true, true, true, true⟩,
    .mount ['d'] (.ok ⟨some ['v'], .ok 7⟩), .mount ['e'] (.ok ⟨some ['v'], .ok 8⟩)]

theorem twins_ambiguous : ∃ t, run step twins vfsBootstrap = .ok t ∧ ¬NamesRight t ∧
    (∃ c, vfsGetroot ['v'] (fun _ => 0) t.knowndevs = .ok (.ok 7, c)) ∧
    ∃ c, vfsGetroot ['v'] (fun _ => 0) t.knowndevs.reverse = .ok (.ok 8, c) := by
  refine ⟨_, rfl, ?_, ⟨_, rfl⟩, ⟨_, rfl⟩⟩
  intro h
  have hij := h.apart 0 1 _ _ ['v'] rfl rfl (.inr (.inr rfl)) (.inr (.inr rfl))
  cases hij

end OS161.VfsList
