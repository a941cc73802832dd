import OS161.CvRuns
import OS161.SemFs

/-!
# The count of a semaphore file

`semfs_read` is P, `semfs_write` is V, and both work in any amounts. Readers
sleep on one condition variable, and a writer wakes them only if it finds the
count at zero: one of them if the count becomes one, all of them if it becomes
more. The table lock that `semfs_getsem` takes and releases is left out.
-/

set_option autoImplicit false

namespace OS161.SemCounts

open Function OS161.Channels OS161.Synch OS161.Vfs

/-- `written` and `consumed` only record the amounts, and `truncated` whether
the count has been set. -/
structure Sem where
  count : UInt32
  written : ℕ
  consumed : ℕ
  truncated : Bool
  deriving DecidableEq

def semfsSemCreate : Sem := ⟨0, 0, 0, false⟩

inductive Errno where
  | EINVAL
  | EFBIG
  deriving DecidableEq

inductive Op where
  | read (size : UInt32)
  | write (size : UInt32)
  | truncate (len : ℤ)
  deriving DecidableEq

/-- `idle` keeps what the last call has returned. In `read` and `write` a thread
is at the head of the loop with `uio_resid` left, for the first time or after
`cv_wait`; in `truncate` it has the lock. After `semfs_wakeup` it is in `add` or
`set`, with the new count. -/
inductive Pc where
  | idle (result : Option Errno)
  | read (again : Bool) (resid : UInt32)
  | write (resid : UInt32)
  | truncate (newcount : UInt32)
  | add (newcount resid : UInt32)
  | set (newcount : UInt32)
  deriving DecidableEq

/-- The loop in `semfs_read`, once. -/
def semfsRead (again : Bool) (resid : UInt32) (b : Sem) : Call Unit × Pc × Sem :=
  if resid = 0 then (.release, .idle none, b)
  else
    let taken := SemFs.consume b.count resid
    let b' := { b with count := b.count - taken, consumed := b.consumed + taken.toNat }
    if resid - taken = 0 then (.release, .idle none, b')
    else if b'.count = 0 then (.wait (), .read true (resid - taken), b')
    else (.skip, .read again (resid - taken), b')

def semfsWakeup (newcount : UInt32) (b : Sem) : Call Unit :=
  if 0 < b.count ∨ newcount = 0 then .skip
  else if newcount = 1 then .signal ()
  else .broadcast ()

/-- The loop in `semfs_write`, up to the wakeup. The sum wraps. -/
def semfsWrite (resid : UInt32) (b : Sem) : Call Unit × Pc × Sem :=
  if resid = 0 then (.release, .idle none, b)
  else if b.count + resid < b.count then (.release, .idle (some .EFBIG), b)
  else (semfsWakeup (b.count + resid) b, .add (b.count + resid) resid, b)

/-- `semfs_truncate` before it takes the lock. -/
def semfsTruncate (len : ℤ) (b : Sem) : Call Unit × Pc × Sem :=
  if len < 0 then (.skip, .idle (some .EINVAL), b)
  else if 0xffffffff < len then (.skip, .idle (some .EFBIG), b)
  else (.acquire, .truncate (UInt32.ofNat len.toNat), b)

variable {T : Type}

def move : Client T Unit Pc Sem Op
  | .read size, _, .idle _, b => .ok (.acquire, .read false size, b)
  | .write size, _, .idle _, b => .ok (.acquire, .write size, b)
  | .truncate len, _, .idle _, b => .ok (semfsTruncate len b)
  | _, _, .read again resid, b => .ok (semfsRead again resid b)
  | _, _, .write resid, b => .ok (semfsWrite resid b)
  | _, _, .add newcount resid, b =>
    .ok (.skip, .write 0, { b with count := newcount, written := b.written + resid.toNat })
  | _, _, .truncate newcount, b => .ok (semfsWakeup newcount b, .set newcount, b)
  | _, _, .set newcount, b => .ok (.release, .idle none, { b with count := newcount, truncated := true })

abbrev Threads (T : Type) := Kernel T Unit Pc Sem

def initial : Threads T := create (fun _ => .idle none) semfsSemCreate

/-- A reader in `cv_wait` that has been woken, or that has come back from it and
is about to look at the count. -/
def onTheWay : Point Unit Pc → Bool
  | .wait .woken _ _ | .wait .unspin _ _ => true
  | .acquire _ (some _) _ => true
  | .client _ (.read again _) => again
  | _ => false

/-- The count that a thread is about to set when it calls `semfs_wakeup`. -/
def newcount (b : Sem) : Point Unit Pc → Option UInt32
  | .client _ (.write resid) => if resid = 0 ∨ b.count + resid < b.count then none else some (b.count + resid)
  | .client _ (.truncate n) => some n
  | _ => none

/-- A wakeup that raises a count which is not zero finds no reader asleep. -/
def Calm (a : T × Op) (s : Threads T) : Prop :=
  ∀ n, newcount s.mem.shared (s.place a.1) = some n → 0 < s.mem.shared.count →
    s.mem.shared.count < n → s.chan (some ()) = []

/-- A reader sleeps although there is something to take, and nobody is on the way
to take it. -/
def Lost (s : Threads T) : Prop :=
  0 < s.mem.shared.count ∧ s.chan (some ()) ≠ [] ∧ ∀ t, onTheWay (s.place t) = false

/-! One round of each loop. -/

variable {b b' : Sem} {call : Call Unit} {q : Pc} {again : Bool} {resid n : UInt32}

theorem consume_toNat (count resid : UInt32) :
    (SemFs.consume count resid).toNat = min count.toNat resid.toNat := by
  simp only [SemFs.consume, UInt32.lt_iff_toNat_lt, UInt32.toNat_zero]
  split
  · split <;> omega
  · simp only [UInt32.toNat_zero]
    omega

theorem toNat_ne_zero {a : UInt32} (ha : a ≠ 0) : a.toNat ≠ 0 :=
  fun h => ha (UInt32.toNat_inj.mp h)

/-- A reader leaves with all it wanted, or with the count at zero. -/
theorem read_cases (hr : semfsRead again resid b = (call, q, b')) :
    b'.written = b.written ∧ b'.truncated = b.truncated ∧
    b'.count.toNat = b.count.toNat - resid.toNat ∧
    b'.count.toNat + b'.consumed = b.count.toNat + b.consumed ∧
    (call = .release ∧ q = .idle none ∨
      ∃ left, left ≠ 0 ∧ b'.count = 0 ∧ call = .wait () ∧ q = .read true left) := by
  simp only [semfsRead] at hr
  split at hr
  · next h0 =>
    obtain ⟨rfl, rfl, rfl⟩ : _ ∧ _ ∧ _ := by simpa using hr
    simp [h0]
  · next h0 =>
    have htaken := consume_toNat b.count resid
    have hcount : (b.count - SemFs.consume b.count resid).toNat = b.count.toNat - resid.toNat := by
      rw [UInt32.toNat_sub_of_le _ _ (by rw [UInt32.le_iff_toNat_le]; omega)]
      omega
    have hsum : (b.count - SemFs.consume b.count resid).toNat + (b.consumed + (SemFs.consume b.count resid).toNat) =
        b.count.toNat + b.consumed := by omega
    split at hr
    · obtain ⟨rfl, rfl, rfl⟩ : _ ∧ _ ∧ _ := by simpa using hr.symm
      exact ⟨rfl, rfl, hcount, hsum, .inl ⟨rfl, rfl⟩⟩
    · next hleft =>
      -- what is left to take is more than there was
      have hlt : b.count.toNat < resid.toNat := by
        by_contra hle
        apply hleft
        rw [← UInt32.toNat_inj, UInt32.toNat_sub_of_le _ _ (by rw [UInt32.le_iff_toNat_le]; omega),
          UInt32.toNat_zero]
        omega
      have hzero : b.count - SemFs.consume b.count resid = 0 := by
        rw [← UInt32.toNat_inj, hcount, UInt32.toNat_zero]
        omega
      rw [if_pos hzero] at hr
      obtain ⟨rfl, rfl, rfl⟩ : _ ∧ _ ∧ _ := by simpa using hr.symm
      exact ⟨rfl, rfl, hcount, hsum, .inr ⟨_, hleft, hzero, rfl, rfl⟩⟩

theorem wraps_iff (a r : UInt32) : a + r < a ↔ 2^32 ≤ a.toNat + r.toNat := by
  have ha := a.toNat_lt
  have hr := r.toNat_lt
  rw [UInt32.lt_iff_toNat_lt, UInt32.toNat_add]
  omega

theorem write_cases (hw : semfsWrite resid b = (call, q, b')) :
    b' = b ∧
    (resid = 0 ∧ call = .release ∧ q = .idle none ∨
      2^32 ≤ b.count.toNat + resid.toNat ∧ call = .release ∧ q = .idle (some .EFBIG) ∨
      resid ≠ 0 ∧ (b.count + resid).toNat = b.count.toNat + resid.toNat ∧
        call = semfsWakeup (b.count + resid) b ∧ q = .add (b.count + resid) resid) := by
  simp only [semfsWrite, wraps_iff] at hw
  split at hw
  · next h0 =>
    obtain ⟨rfl, rfl, rfl⟩ : _ ∧ _ ∧ _ := by simpa using hw.symm
    exact ⟨rfl, .inl ⟨h0, rfl, rfl⟩⟩
  · next h0 =>
    split at hw
    · next hwrap =>
      obtain ⟨rfl, rfl, rfl⟩ : _ ∧ _ ∧ _ := by simpa using hw.symm
      exact ⟨rfl, .inr (.inl ⟨hwrap, rfl, rfl⟩)⟩
    · next hwrap =>
      obtain ⟨rfl, rfl, rfl⟩ : _ ∧ _ ∧ _ := by simpa using hw.symm
      refine ⟨rfl, .inr (.inr ⟨h0, ?_, rfl, rfl⟩)⟩
      rw [UInt32.toNat_add, Nat.mod_eq_of_lt (by omega)]

theorem wakeup_cases (n : UInt32) (b : Sem) :
    semfsWakeup n b = .skip ∧ (0 < b.count ∨ n = 0) ∨
    semfsWakeup n b = .signal () ∧ n = 1 ∨ semfsWakeup n b = .broadcast () := by
  simp only [semfsWakeup]
  split
  · next h => exact .inl ⟨rfl, h⟩
  · split
    · next h1 => exact .inr (.inl ⟨rfl, h1⟩)
    · exact .inr (.inr rfl)

theorem truncate_cases {len : ℤ} (ht : semfsTruncate len b = (call, q, b')) :
    b' = b ∧ (call = .skip ∧ (q = .idle (some .EINVAL) ∨ q = .idle (some .EFBIG)) ∨
      call = .acquire ∧ ∃ n, q = .truncate n) := by
  simp only [semfsTruncate] at ht
  split at ht
  · simp_all
  · split at ht
    · simp_all
    · obtain ⟨rfl, rfl, rfl⟩ : _ ∧ _ ∧ _ := by simpa using ht
      exact ⟨rfl, .inr ⟨rfl, _, rfl⟩⟩

/-! Where the threads can be. -/

/-- The positions between `lock_acquire` and `lock_release`. -/
def busy : Pc → Bool
  | .idle _ => false
  | _ => true

/-- The positions in which an operation begins. -/
def opens : Pc → Bool
  | .read false _ | .write _ | .truncate _ => true
  | _ => false

/-- Whoever has waited still wants something. -/
def retries : Pc → Bool
  | .read again resid => again && decide (resid ≠ 0)
  | _ => false

def target : Pc → Option UInt32
  | .add n _ | .set n => some n
  | _ => none

/-- The calls the three functions make, and from where. -/
def fits : Point Unit Pc → Bool
  | .client inside p => inside == busy p && (p != .read true 0)
  | .acquire _ none p => opens p
  | .acquire _ (some _) p | .release _ (some _) p | .wait _ _ p => retries p
  | .release _ none p => !busy p
  | .wake _ all _ p => (target p).isSome && (all || target p == some 1)

/-- In `cv_wait`, before the wakeup. -/
def starving : Point Unit Pc → Bool
  | .release _ w _ => w.isSome
  | .wait .spin _ _ | .wait .sleep _ _ | .wait .asleep _ _ => true
  | _ => false

/-- The count that is set next, once the wakeup is over. -/
def promise : Point Unit Pc → Option UInt32
  | .client _ p | .wake .done _ _ p => target p
  | _ => none

/-- The two numbers of a `semfs_write` that is about to set the count. -/
def pending : Point Unit Pc → Option (UInt32 × UInt32)
  | .client _ (.add n resid) | .wake _ _ _ (.add n resid) => some (n, resid)
  | _ => none

/-- What a step within the calls leaves as it was. -/
structure Keeps (x y : Point Unit Pc) : Prop where
  fits : fits x = true → fits y = true
  starving : starving y = true →
    starving x = true ∧ (Synch.asleep x = some (some ()) → Synch.asleep y = some (some ()))
  onTheWay : onTheWay x = true → onTheWay y = true
  pending : ∀ r, pending y = some r → pending x = some r

def Balanced (b : Sem) : Prop := b.truncated = false → b.written = b.count.toNat + b.consumed

theorem Keeps.refl (x : Point Unit Pc) : Keeps x x := ⟨id, fun h => ⟨h, id⟩, id, fun _ => id⟩

theorem retries_not_target {p : Pc} (h : retries p = true) :
    target p = none ∧ busy p = true ∧ p ≠ .read true 0 ∧ ∀ i : Bool, onTheWay (.client i p) = true := by
  cases p <;> simp_all [retries, target, busy, onTheWay]

theorem opens_not_target {p : Pc} (h : opens p = true) :
    target p = none ∧ busy p = true ∧ p ≠ .read true 0 := by
  cases p with
  | read again resid => cases again <;> simp_all [opens, target, busy]
  | _ => simp_all [opens, target, busy]

theorem idle_not_target {p : Pc} (h : busy p = false) : target p = none ∧ p ≠ .read true 0 := by
  cases p <;> simp_all [target, busy]

theorem pending_none {p : Pc} (h : target p = none) (i : Bool) : pending (.client i p) = none := by
  cases p <;> simp_all [target, pending]

theorem keeps_woken {x : Point Unit Pc} (hx : Synch.asleep x ≠ none) : Keeps x (woken x) := by
  cases x with
  | acquire a w p => cases a <;> cases w <;> constructor <;> simp_all [woken, fits, starving, onTheWay, pending, Synch.asleep]
  | wait w c p => cases w <;> constructor <;> simp_all [woken, fits, starving, onTheWay, pending, Synch.asleep]
  | _ => simp_all [Synch.asleep]

theorem promise_woken (x : Point Unit Pc) : promise (woken x) = promise x := by
  cases x with
  | acquire a w p => cases a <;> rfl
  | wait w c p => cases w <;> rfl
  | _ => rfl

theorem silent_keeps {x y : Point Unit Pc} (h : Silent x y) (hx : fits x = true) :
    Keeps x y ∧ promise y = promise x := by
  cases h with
  | acquireDone w p =>
    cases w with
    | none =>
      obtain ⟨ht, hb, hr⟩ := opens_not_target hx
      exact ⟨⟨by simp [fits, hb, hr], by simp [starving], by simp [onTheWay], by simp [pending_none ht]⟩, ht⟩
    | some c =>
      obtain ⟨ht, hb, hr, hway⟩ := retries_not_target hx
      exact ⟨⟨by simp [fits, hb, hr], by simp [starving], by simp [hway], by simp [pending_none ht]⟩, ht⟩
  | releaseDone p =>
    obtain ⟨ht, hr⟩ := idle_not_target (show busy p = false by simpa [fits] using hx)
    exact ⟨⟨by simp [fits, hr], by simp [starving], by simp [onTheWay], by simp [pending_none ht]⟩, ht⟩
  | wakeDone all c p =>
    simp only [fits, Bool.and_eq_true] at hx
    refine ⟨⟨?_, by simp [starving], by simp [onTheWay], ?_⟩, rfl⟩
    · cases p <;> simp_all [fits, target, busy]
    · cases p <;> simp [pending]
  | acquireCheck w p =>
    exact ⟨⟨by cases w <;> exact id, by simp [starving], by cases w <;> simp [onTheWay], by simp [pending]⟩, rfl⟩
  | acquireSpin w p =>
    exact ⟨⟨by cases w <;> exact id, by simp [starving], by cases w <;> simp [onTheWay], by simp [pending]⟩, rfl⟩
  | acquireWoken w p =>
    exact ⟨⟨by cases w <;> exact id, by simp [starving], by cases w <;> simp [onTheWay], by simp [pending]⟩, rfl⟩
  | releaseCheck w p =>
    exact ⟨⟨by cases w <;> exact id, by simp [starving, Synch.asleep], by simp [onTheWay], by simp [pending]⟩, rfl⟩
  | releaseSpin w p =>
    exact ⟨⟨by cases w <;> exact id, by simp [starving, Synch.asleep], by simp [onTheWay], by simp [pending]⟩, rfl⟩
  | wakeSpin all c p =>
    refine ⟨⟨id, by simp [starving], by simp [onTheWay], ?_⟩, rfl⟩
    cases p <;> simp [pending]
  | _ =>
    exact ⟨⟨id, by simp [starving, Synch.asleep], by simp [onTheWay], by simp [pending]⟩, rfl⟩

variable [DecidableEq T] {t : T} {op : Op}

/-- Where a thread is after it has made a call. -/
def entered (inside : Bool) (q : Pc) : Call Unit → Point Unit Pc
  | .skip => .client inside q
  | .acquire => .acquire .spin none q
  | .release => .release .spin none q
  | .wait c => .wait .spin c q
  | .signal c => .wake .spin false c q
  | .broadcast c => .wake .spin true c q

theorem enter_place {m : Mem T Sem} {inside : Bool} {y : Point Unit Pc} (he : enter t m inside q call = .ok y) :
    y = entered inside q call := by
  cases call <;> simp only [enter] at he <;> (try split at he) <;> cases he <;> rfl

theorem entered_wakeup (inside : Bool) (q : Pc) (n : UInt32) (b : Sem) :
    entered inside q (semfsWakeup n b) = .client inside q ∧ (0 < b.count ∨ n = 0) ∨
    entered inside q (semfsWakeup n b) = .wake .spin false () q ∧ n = 1 ∨
    entered inside q (semfsWakeup n b) = .wake .spin true () q := by
  obtain ⟨hc, h⟩ | ⟨hc, h⟩ | hc := wakeup_cases n b
  · exact .inl ⟨by rw [hc, entered], h⟩
  · exact .inr (.inl ⟨by rw [hc, entered], h⟩)
  · exact .inr (.inr (by rw [hc, entered]))

/-- What a step between two calls does to the semaphore, and where it leads. -/
theorem client_counts {inside : Bool} {p : Pc} {m : Mem T Sem} {y : Point Unit Pc}
    (hm : move op t p b = .ok (call, q, b')) (he : enter t m inside q call = .ok y)
    (hp : fits (.client inside p) = true) (hb : Balanced b)
    (ha : ∀ n r, pending (.client inside p) = some (n, r) → n.toNat = b.count.toNat + r.toNat) :
    fits y = true ∧ (b' = b ∨ inside = true) ∧ Balanced b' ∧
      ∀ n r, pending y = some (n, r) → n.toNat = b'.count.toNat + r.toNat := by
  have hi : inside = busy p := by
    simp only [fits, Bool.and_eq_true, beq_iff_eq] at hp
    exact hp.1
  have hy := enter_place he
  cases p with
  | idle r =>
    cases op with
    | read size =>
      cases hm
      simp [hy, entered, fits, opens, pending, hb]
    | write size =>
      cases hm
      simp [hy, entered, fits, opens, pending, hb]
    | truncate len =>
      have hm : semfsTruncate len b = (call, q, b') := Except.ok.inj hm
      obtain ⟨rfl, ⟨rfl, rfl | rfl⟩ | ⟨rfl, n, rfl⟩⟩ := truncate_cases hm <;>
        simp [hy, hi, entered, fits, opens, busy, pending, hb]
  | read again resid =>
    have hm : semfsRead again resid b = (call, q, b') := by cases op <;> exact Except.ok.inj hm
    obtain ⟨hw, ht, -, hsum, hnext⟩ := read_cases hm
    have hbal : Balanced b' := by
      intro htr
      rw [hw, hsum]
      exact hb (ht ▸ htr)
    obtain ⟨rfl, rfl⟩ | ⟨left, hleft, -, rfl, rfl⟩ := hnext
    · simp [hy, hi, entered, fits, busy, pending, hbal]
    · simp [hy, entered, fits, retries, pending, hbal, hleft]
      exact .inr hi
  | write resid =>
    have hm : semfsWrite resid b = (call, q, b') := by cases op <;> exact Except.ok.inj hm
    obtain ⟨rfl, ⟨-, rfl, rfl⟩ | ⟨-, rfl, rfl⟩ | ⟨-, hsum, hcall, rfl⟩⟩ := write_cases hm
    · simp [hy, entered, fits, busy, pending, hb]
    · simp [hy, entered, fits, busy, pending, hb]
    · rw [hcall] at hy
      obtain ⟨hc, -⟩ | ⟨hc, h1⟩ | hc := entered_wakeup inside (.add (b'.count + resid) resid) (b'.count + resid) b' <;>
        rw [hc] at hy
      · simp [hy, hi, fits, busy, pending, hb, hsum]
      · simp [hy, fits, target, pending, hb, ← hsum, h1]
      · simp [hy, fits, target, pending, hb, hsum]
  | truncate n =>
    have hm : (semfsWakeup n b, Pc.set n, b) = (call, q, b') := by cases op <;> exact Except.ok.inj hm
    obtain ⟨rfl, rfl, rfl⟩ : _ ∧ _ ∧ _ := by simpa using hm
    obtain ⟨hc, -⟩ | ⟨hc, h1⟩ | hc := entered_wakeup inside (.set n) n b <;> rw [hc] at hy
    · simp [hy, hi, fits, busy, pending, hb]
    · simp [hy, fits, target, pending, hb, h1]
    · simp [hy, fits, target, pending, hb]
  | add n r =>
    have hsum := ha n r rfl
    cases op <;> cases hm <;> refine ⟨by simp [hy, hi, entered, fits, busy], .inr hi, ?_, by simp [hy, entered, pending]⟩ <;>
      intro htr <;> have := hb htr <;> simp only <;> omega
  | set n =>
    cases op <;> cases hm <;> simp [hy, hi, entered, fits, busy, pending, Balanced]

/-- A step within the calls. Others are at most woken by it. -/
structure Within (s s' : Threads T) (t : T) : Prop where
  shared : s'.mem.shared = s.mem.shared
  keeps : ∀ u, Keeps (s.place u) (s'.place u)
  promise : ∀ u, promise (s'.place u) = promise (s.place u) ∨
    u = t ∧ ∃ all c p, s.place t = .wake .wake all c p ∧ s'.place t = .wake .done all c p

variable {s s' : Threads T}

theorem Within.goto {m : Mem T Sem} {spin : Option Unit → Option T} {chan : Option Unit → List T} {now : ℕ}
    {since : T → ℕ} {x : Point Unit Pc} (hm : m.shared = s.mem.shared) (hx : Keeps (s.place t) x)
    (hp : SemCounts.promise x = SemCounts.promise (s.place t) ∨ ∃ all c p, s.place t = .wake .wake all c p ∧ x = .wake .done all c p) :
    Within s ({ s with spin := spin, mem := m, chan := chan, now := now, since := since }.goto t x) t := by
  refine ⟨hm, ?_, ?_⟩
  · intro u
    by_cases hu : u = t
    · subst hu
      simpa [State.goto] using hx
    · simpa [State.goto, update_of_ne hu] using Keeps.refl _
  · intro u
    by_cases hu : u = t
    · subst hu
      simpa [State.goto] using hp
    · simp [State.goto, update_of_ne hu]

/-- A wakeup: some sleepers are woken, and then the thread goes on. -/
theorem Within.wakes {chan : Option Unit → List T} {place : T → Point Unit Pc} {x : Point Unit Pc}
    (hpl : ∀ u, place u = s.place u ∨ Synch.asleep (s.place u) ≠ none ∧ place u = woken (s.place u))
    (hx : Keeps (s.place t) x)
    (hp : SemCounts.promise x = SemCounts.promise (s.place t) ∨ ∃ all c p, s.place t = .wake .wake all c p ∧ x = .wake .done all c p) :
    Within s ({ s with chan := chan, place := place }.goto t x) t := by
  refine ⟨rfl, ?_, ?_⟩
  · intro u
    by_cases hu : u = t
    · subst hu
      simpa [State.goto] using hx
    · obtain h | ⟨ha, h⟩ := hpl u
      · simpa [State.goto, update_of_ne hu, h] using Keeps.refl _
      · simpa [State.goto, update_of_ne hu, h] using keeps_woken ha
  · intro u
    by_cases hu : u = t
    · subst hu
      simpa [State.goto] using hp
    · obtain h | ⟨ha, h⟩ := hpl u
      · simp [State.goto, update_of_ne hu, h]
      · simp [State.goto, update_of_ne hu, h, promise_woken]

/-- The ends of the two kinds of wakeup. -/
theorem wake_keeps {k : Option Unit} {x y : Point Unit Pc}
    (hp : (∃ w p, y = .release .wake w p ∧ k = none ∧ x = .release .done w p) ∨
      ∃ c p, y = .wake .wake false c p ∧ k = some c ∧ x = .wake .done false c p) :
    Keeps y x ∧ (promise x = promise y ∨ ∃ all c p, y = .wake .wake all c p ∧ x = .wake .done all c p) := by
  obtain ⟨w, p, rfl, -, rfl⟩ | ⟨c, p, rfl, -, rfl⟩ := hp
  · refine ⟨⟨by cases w <;> exact id, by simp [starving, Synch.asleep], by simp [onTheWay], by simp [pending]⟩, .inl rfl⟩
  · refine ⟨⟨id, by simp [starving], by simp [onTheWay], ?_⟩, .inr ⟨_, _, _, rfl, rfl⟩⟩
    cases p <;> simp [pending]

theorem event_within (h : Locked s) (hfit : ∀ u, fits (s.place u) = true) (he : Event move t op s s') :
    (∃ inside p call q y b, s.place t = .client inside p ∧ move op t p s.mem.shared = .ok (call, q, b) ∧
      enter t s.mem inside q call = .ok y ∧ s'.mem.shared = b ∧ s'.place = update s.place t y) ∨
    Within s s' t := by
  have ht := hfit t
  cases he with
  | client hp hm he => exact .inl ⟨_, _, _, _, _, _, hp, hm, he, rfl, rfl⟩
  | silent hp =>
    obtain ⟨hk, hpr⟩ := silent_keeps hp ht
    exact .inr (.goto rfl hk (.inl hpr))
  | @take again w p hp ha =>
    refine .inr (.goto rfl ?_ (.inl (by rw [hp]; rfl)))
    rw [hp]
    exact ⟨by cases w <;> exact id, by simp [starving], by cases w <;> simp [onTheWay], by simp [pending]⟩
  | @refuse again w p hp ha =>
    refine .inr (.goto rfl ?_ (.inl (by rw [hp]; rfl)))
    rw [hp]
    exact ⟨by cases w <;> exact id, by simp [starving], by cases w <;> simp [onTheWay], by simp [pending]⟩
  | @clear w p hp =>
    refine .inr (.goto rfl ?_ (.inl (by rw [hp]; rfl)))
    rw [hp]
    exact ⟨by cases w <;> exact id, by simp [starving, Synch.asleep], by simp [onTheWay], by simp [pending]⟩
  | sleep hp =>
    obtain ⟨w, p, hp, rfl, rfl⟩ | ⟨c, p, hp, rfl, rfl⟩ := hp <;>
      refine .inr (.goto rfl ?_ (.inl (by rw [hp]; rfl))) <;> rw [hp]
    · exact ⟨by cases w <;> exact id, by simp [starving], by cases w <;> simp [onTheWay], by simp [pending]⟩
    · exact ⟨id, by simp [starving, Synch.asleep], by simp [onTheWay], by simp [pending]⟩
  | wakeNone hp hk hq =>
    obtain ⟨hkeep, hpr⟩ := wake_keeps hp
    exact .inr (.goto rfl hkeep hpr)
  | @wakeOne k x u us hp hk hq =>
    obtain ⟨hkeep, hpr⟩ := wake_keeps hp
    refine .inr (.wakes ?_ hkeep hpr)
    intro v
    by_cases hv : v = u
    · subst hv
      have ha := (h.sound.chan k v).mp (by simp [hq])
      exact .inr ⟨by simp [ha], by simp⟩
    · exact .inl (by simp [hv])
  | @wakeAll c p hp hk =>
    refine .inr (.wakes ?_ ?_ (.inr ⟨_, _, _, hp, rfl⟩))
    · intro v
      by_cases hv : v ∈ s.chan (some c)
      · have ha := (h.sound.chan (some c) v).mp hv
        exact .inr ⟨by simp [ha], by simp [hv, program]⟩
      · exact .inl (by simp [hv])
    · rw [hp]
      refine ⟨id, by simp [starving], by simp [onTheWay], ?_⟩
      cases p <;> simp [pending]

/-! Every run. -/

structure Counted (s : Threads T) : Prop where
  locked : Locked s
  fits : ∀ t, fits (s.place t) = true
  balanced : Balanced s.mem.shared
  adds : ∀ t n r, pending (s.place t) = some (n, r) → n.toNat = s.mem.shared.count.toNat + r.toNat

theorem holds_of_promise {x : Point Unit Pc} {n : UInt32} (hx : fits x = true) (hp : promise x = some n) :
    holds x = true := by
  cases x with
  | client inside p =>
    have hb : busy p = true := by cases p <;> simp_all [promise, target, busy]
    simp_all [fits, holds]
  | wake w all c p => rfl
  | _ => cases hp

theorem holds_of_pending {x : Point Unit Pc} {r : UInt32 × UInt32} (hx : fits x = true) (hp : pending x = some r) :
    holds x = true := by
  cases x with
  | client inside p =>
    have hb : busy p = true := by cases p <;> simp_all [pending, busy]
    simp_all [fits, holds]
  | wake w all c p => rfl
  | _ => cases hp

omit [DecidableEq T] in
/-- Only the holder of the lock is at such a place. -/
theorem Counted.alone (h : Counted s) {u : T} (ht : holds (s.place t) = true) (hu : holds (s.place u) = true) :
    u = t :=
  Option.some.inj (((h.locked.holder u).mpr hu).symm.trans ((h.locked.holder t).mpr ht))

theorem step_counted {a : T × Op} (h : Counted s) (hs : Synch.step move a s = .ok s') : Counted s' := by
  have hl := step_locked h.locked hs
  obtain ⟨inside, p, call, q, y, b, hp, hm, he, hb, hpl⟩ | hw :=
    event_within h.locked h.fits (effect_event (step_effect hs))
  · obtain ⟨hy, hin, hbal, hadd⟩ := client_counts hm he (hp ▸ h.fits a.1) h.balanced (hp ▸ h.adds a.1)
    refine ⟨hl, ?_, hb ▸ hbal, ?_⟩
    · intro u
      by_cases hu : u = a.1
      · rw [hpl, hu, update_self]
        exact hy
      · rw [hpl, update_of_ne hu]
        exact h.fits u
    · intro u n r hpe
      by_cases hu : u = a.1
      · rw [hpl, hu, update_self] at hpe
        exact hb ▸ hadd n r hpe
      · rw [hpl, update_of_ne hu] at hpe
        obtain hsame | hin := hin
        · rw [hb, hsame]
          exact h.adds u n r hpe
        · -- both would hold the lock
          exact absurd (h.alone (by rw [hp, holds, hin]) (holds_of_pending (h.fits u) hpe)) hu
  · refine ⟨hl, fun u => (hw.keeps u).fits (h.fits u), hw.shared ▸ h.balanced, ?_⟩
    intro u n r hpe
    rw [hw.shared]
    exact h.adds u n r ((hw.keeps u).pending _ hpe)

omit [DecidableEq T] in
theorem initial_counted : Counted (initial : Threads T) :=
  ⟨create_locked _ _, fun _ => rfl, fun _ => rfl, fun _ _ _ h => by cases h⟩

/-! Runs without such wakeups. -/

/-- With the count at `n`, readers sleep only if there is nothing to take, or
one unit that another reader has been woken for. -/
def Level (n : UInt32) (place : T → Point Unit Pc) : Prop :=
  ∀ t, starving (place t) = true →
    n = 0 ∨ n = 1 ∧ Synch.asleep (place t) = some (some ()) ∧ ∃ u, onTheWay (place u) = true

structure Fed (s : Threads T) : Prop where
  counted : Counted s
  level : Level s.mem.shared.count s.place
  promised : ∀ t n, promise (s.place t) = some n → Level n s.place

omit [DecidableEq T] in
theorem Level.keeps {place place' : T → Point Unit Pc} (h : Level n place)
    (hk : ∀ u, Keeps (place u) (place' u)) : Level n place' := by
  intro t ht
  obtain ⟨hold, hasleep⟩ := (hk t).starving ht
  obtain h0 | ⟨h1, ha, u, hu⟩ := h t hold
  · exact .inl h0
  · exact .inr ⟨h1, hasleep ha, u, (hk u).onTheWay hu⟩

omit [DecidableEq T] in
theorem level_zero (place : T → Point Unit Pc) : Level 0 place := fun _ _ => .inl rfl

theorem Level.goto {place : T → Point Unit Pc} {x : Point Unit Pc} (h : Level n place)
    (hx : starving x = false) (hway : onTheWay (place t) = true → onTheWay x = true) :
    Level n (update place t x) := by
  intro u hu
  by_cases hut : u = t
  · subst hut
    simp [hx] at hu
  · rw [update_of_ne hut] at hu ⊢
    obtain h0 | ⟨h1, ha, v, hv⟩ := h u hu
    · exact .inl h0
    · refine .inr ⟨h1, ha, v, ?_⟩
      by_cases hvt : v = t
      · subst hvt
        rw [update_self]
        exact hway hv
      · rwa [update_of_ne hvt]

omit [DecidableEq T] in
/-- While a thread gives a wakeup, whoever waits is on the channel. -/
theorem Counted.queued (h : Counted s) {all : Bool} {c : Unit} {p : Pc} (hp : s.place t = .wake .wake all c p)
    {u : T} (hu : starving (s.place u) = true) : u ∈ s.chan (some ()) := by
  refine h.locked.queued t all () p hp u ?_
  -- the others that wait have not let go of the lock
  have hno : ¬holds (s.place u) = true := by
    intro hh
    have hut := h.alone (t := t) (by simp [hp, holds]) hh
    subst hut
    simp [hp, starving] at hu
  cases hpu : s.place u with
  | release r w q =>
    cases w with
    | none => simp [hpu, starving] at hu
    | some d => cases r <;> simp_all [waiting, holds]
  | wait w d q => cases w <;> simp_all [starving, waiting, holds]
  | _ => simp [hpu, starving] at hu

/-- After the wakeup there are no more sleepers than it has left units for. -/
theorem wake_level (h : Counted s) (he : Event move t op s s') {all : Bool} {c : Unit} {p : Pc}
    (hp : s.place t = .wake .wake all c p) (hn : target p = some n) : Level n s'.place := by
  have hfit := h.fits t
  simp only [hp, fits, hn, Bool.and_eq_true, Bool.or_eq_true, beq_iff_eq, Option.some.injEq] at hfit
  cases he with
  | client hc | take hc | refuse hc | clear hc => simp [hp] at hc
  | silent hx =>
    rw [hp] at hx
    cases hx
  | sleep hs =>
    obtain ⟨w, q, hs, -⟩ | ⟨d, q, hs, -⟩ := hs <;> simp [hp] at hs
  | @wakeNone k x hw hk hq =>
    obtain ⟨w, q, hw, -⟩ | ⟨d, q, hw, rfl, rfl⟩ := hw
    · simp [hp] at hw
    · intro u hu
      by_cases hut : u = t
      · subst hut
        simp [State.goto, starving] at hu
      · have hmem := h.queued hp (u := u) (by simpa [State.goto, update_of_ne hut] using hu)
        simp [hq] at hmem
  | @wakeOne k x v vs hw hk hq =>
    obtain ⟨w, q, hw, -⟩ | ⟨d, q, hw, rfl, rfl⟩ := hw
    · simp [hp] at hw
    · obtain ⟨q', hv⟩ := h.locked.on_cv (u := v) (c := d) (by simp [hq])
      have hvt : v ≠ t := by
        rintro rfl
        simp [hp] at hv
      have hone : n = 1 := by
        rw [hp] at hw
        cases hw
        simpa using hfit.2
      intro u hu
      by_cases hut : u = t
      · subst hut
        simp [State.goto, starving] at hu
      · by_cases huv : u = v
        · subst huv
          simp [State.goto, update_of_ne hut, hv, woken, starving] at hu
        · simp only [State.goto, update_of_ne hut, update_of_ne huv] at hu ⊢
          obtain ⟨q'', ha⟩ := h.locked.on_cv (h.queued hp hu)
          exact .inr ⟨hone, by simp [ha, Synch.asleep], v, by simp [update_of_ne hvt, hv, woken, onTheWay]⟩
  | @wakeAll d q hw hk =>
    intro u hu
    by_cases hut : u = t
    · subst hut
      simp [State.goto, starving] at hu
    · by_cases hmem : u ∈ s.chan (some ())
      · obtain ⟨q', hq'⟩ := h.locked.on_cv hmem
        simp [State.goto, update_of_ne hut, wakeAll, hmem, program, hq', woken, starving] at hu
      · have hu : starving (s.place u) = true := by
          simpa [State.goto, update_of_ne hut, wakeAll, hmem] using hu
        exact absurd (h.queued hp hu) hmem

omit [DecidableEq T] in
/-- A calm wakeup that is skipped leaves nobody short. -/
theorem Fed.skipped (h : Fed s) {a : T × Op} (hc : Calm a s)
    (hn : newcount s.mem.shared (s.place a.1) = some n) (hskip : 0 < s.mem.shared.count ∨ n = 0) :
    Level n s.place := by
  intro u hu
  obtain hpos | rfl := hskip
  · have hne : s.mem.shared.count ≠ 0 := by
      rintro h0
      simp [h0] at hpos
    obtain h0 | ⟨h1, ha, hway⟩ := h.level u hu
    · exact absurd h0 hne
    · by_cases hlt : s.mem.shared.count < n
      · -- the reader would be on the channel
        have hmem := (h.counted.locked.sound.chan (some ()) u).mpr ha
        simp [hc n hn hpos hlt] at hmem
      · rw [h1, UInt32.lt_iff_toNat_lt, UInt32.toNat_one] at hlt
        by_cases h0 : n = 0
        · exact .inl h0
        · have := toNat_ne_zero h0
          exact .inr ⟨UInt32.toNat_inj.mp (by rw [UInt32.toNat_one]; omega), ha, hway⟩
  · exact .inl rfl

/-- A reader takes what there is, or has had enough. -/
theorem Level.taken {place : T → Point Unit Pc} {x : Point Unit Pc} {c c' : UInt32} (h : Level c place)
    (hc : c'.toNat = c.toNat - resid.toNat) (hr : resid ≠ 0) (hx : starving x = false) :
    Level c' (update place t x) := by
  have hpos := toNat_ne_zero hr
  intro u hu
  left
  have hut : u ≠ t := by
    rintro rfl
    simp [hx] at hu
  rw [update_of_ne hut] at hu
  apply UInt32.toNat_inj.mp
  obtain h0 | ⟨h1, -⟩ := h u hu
  · rw [hc, h0, UInt32.toNat_zero, Nat.zero_sub]
  · rw [hc, h1, UInt32.toNat_one, UInt32.toNat_zero]
    omega

/-- The decision about a wakeup. -/
theorem Fed.wakes (h : Fed s) {a : T × Op} (hc : Calm a s) (hn : newcount s.mem.shared (s.place a.1) = some n)
    (hway : onTheWay (s.place a.1) ≠ true) {inside : Bool} {y : Point Unit Pc}
    (hy : y = entered inside q (semfsWakeup n s.mem.shared)) (hq : target q = some n) :
    Level s.mem.shared.count (update s.place a.1 y) ∧ ∀ k, promise y = some k → Level k (update s.place a.1 y) := by
  obtain ⟨he, hskip⟩ | ⟨he, h1⟩ | he := entered_wakeup inside q n s.mem.shared <;> rw [he] at hy
  · refine ⟨h.level.goto (by simp [hy, starving]) (fun hno => absurd hno hway), ?_⟩
    intro k hk
    obtain rfl : n = k := by simpa [hy, promise, hq] using hk
    exact (h.skipped hc hn hskip).goto (by simp [hy, starving]) (fun hno => absurd hno hway)
  · exact ⟨h.level.goto (by simp [hy, starving]) (fun hno => absurd hno hway), by simp [hy, promise]⟩
  · exact ⟨h.level.goto (by simp [hy, starving]) (fun hno => absurd hno hway), by simp [hy, promise]⟩

/-- The beginning of a call. -/
theorem idle_step {r : Option Errno} {m : Mem T Sem} {inside : Bool} {y : Point Unit Pc}
    (hm : move op t (.idle r) b = .ok (call, q, b')) (he : enter t m inside q call = .ok y) :
    b' = b ∧ starving y = false ∧ promise y = none := by
  have hy := enter_place he
  cases op with
  | read size | write size =>
    cases hm
    simp [hy, entered, starving, promise]
  | truncate len =>
    have hm : semfsTruncate len b = (call, q, b') := Except.ok.inj hm
    obtain ⟨rfl, ⟨rfl, rfl | rfl⟩ | ⟨rfl, n, rfl⟩⟩ := truncate_cases hm <;>
      simp [hy, entered, starving, promise, target]

theorem client_fed {a : T × Op} (h : Fed s) (hc : Calm a s) {inside : Bool} {p : Pc} {y : Point Unit Pc}
    (hp : s.place a.1 = .client inside p) (hm : move a.2 a.1 p s.mem.shared = .ok (call, q, b'))
    (he : enter a.1 s.mem inside q call = .ok y) :
    Level b'.count (update s.place a.1 y) ∧ ∀ n, promise y = some n → Level n (update s.place a.1 y) := by
  have hy := enter_place he
  obtain ⟨t, op⟩ := a
  have hfit := hp ▸ h.counted.fits t
  cases p with
  | idle r =>
    obtain ⟨rfl, hst, hpr⟩ := idle_step hm he
    exact ⟨h.level.goto hst (by simp [hp, onTheWay]), by simp [hpr]⟩
  | read again resid =>
    have hm : semfsRead again resid s.mem.shared = (call, q, b') := by cases op <;> exact Except.ok.inj hm
    obtain ⟨-, -, hcount, -, hnext⟩ := read_cases hm
    obtain ⟨rfl, rfl⟩ | ⟨left, -, hzero, rfl, rfl⟩ := hnext
    · by_cases hr : resid = 0
      · -- a reader that has waited wants something
        have hway : onTheWay (s.place t) = false := by
          cases again <;> simp_all [fits, onTheWay]
        have hsame : b'.count = s.mem.shared.count := UInt32.toNat_inj.mp (by rw [hcount, hr]; simp)
        rw [hsame]
        exact ⟨h.level.goto (by simp [hy, entered, starving]) (by simp [hway]), by simp [hy, entered, promise]⟩
      · exact ⟨h.level.taken hcount hr (by simp [hy, entered, starving]), by simp [hy, entered, promise]⟩
    · rw [hzero]
      exact ⟨level_zero _, by simp [hy, entered, promise]⟩
  | write resid =>
    have hm : semfsWrite resid s.mem.shared = (call, q, b') := by cases op <;> exact Except.ok.inj hm
    have hway : onTheWay (s.place t) = false := by rw [hp]; rfl
    obtain ⟨rfl, ⟨-, rfl, rfl⟩ | ⟨-, rfl, rfl⟩ | ⟨h0, hsum, hcall, rfl⟩⟩ := write_cases hm
    · exact ⟨h.level.goto (by simp [hy, entered, starving]) (by simp [hway]), by simp [hy, entered, promise]⟩
    · exact ⟨h.level.goto (by simp [hy, entered, starving]) (by simp [hway]), by simp [hy, entered, promise]⟩
    · have hn : newcount s.mem.shared (s.place t) = some (s.mem.shared.count + resid) := by
        rw [hp, newcount, if_neg]
        rw [wraps_iff]
        rintro (hr | hwrap)
        · exact h0 hr
        · have := (s.mem.shared.count + resid).toNat_lt
          omega
      exact h.wakes hc hn (by simp [hway]) (hcall ▸ hy) rfl
  | truncate n =>
    have hm : (semfsWakeup n s.mem.shared, Pc.set n, s.mem.shared) = (call, q, b') := by
      cases op <;> exact Except.ok.inj hm
    obtain ⟨rfl, rfl, rfl⟩ : _ ∧ _ ∧ _ := by simpa using hm
    exact h.wakes hc (by rw [hp, newcount]) (by simp [hp, onTheWay]) hy rfl
  | add n r =>
    have hl := h.promised t n (by rw [hp]; rfl)
    have hway : onTheWay (s.place t) = false := by rw [hp]; rfl
    cases op <;> cases hm <;>
      exact ⟨hl.goto (by simp [hy, entered, starving]) (by simp [hway]), by simp [hy, entered, promise, target]⟩
  | set n =>
    have hl := h.promised t n (by rw [hp]; rfl)
    have hway : onTheWay (s.place t) = false := by rw [hp]; rfl
    cases op <;> cases hm <;>
      exact ⟨hl.goto (by simp [hy, entered, starving]) (by simp [hway]), by simp [hy, entered, promise]⟩

theorem step_fed {a : T × Op} (h : Fed s) (hc : Calm a s) (hs : Synch.step move a s = .ok s') : Fed s' := by
  have hcounted := step_counted h.counted hs
  have hev := effect_event (step_effect hs)
  obtain ⟨inside, p, call, q, y, b, hp, hm, he, hb, hpl⟩ | hw := event_within h.counted.locked h.counted.fits hev
  · obtain ⟨hlevel, hprom⟩ := client_fed h hc hp hm he
    refine ⟨hcounted, by rw [hb, hpl]; exact hlevel, ?_⟩
    intro u n hn
    by_cases hu : u = a.1
    · rw [hpl, hu, update_self] at hn
      rw [hpl]
      exact hprom n hn
    · rw [hpl, update_of_ne hu] at hn
      have hfit := hp ▸ h.counted.fits a.1
      cases p with
      | idle r =>
        obtain ⟨-, hst, -⟩ := idle_step hm he
        rw [hpl]
        exact (h.promised u n hn).goto hst (by simp [hp, onTheWay])
      | _ =>
        -- both would hold the lock
        have hin : inside = true := by simp_all [fits, busy]
        exact absurd (h.counted.alone (by rw [hp, holds, hin]) (holds_of_promise (h.counted.fits u) hn)) hu
  · refine ⟨hcounted, hw.shared ▸ h.level.keeps hw.keeps, ?_⟩
    intro u n hn
    obtain hsame | ⟨rfl, all, c, p, hp, hp'⟩ := hw.promise u
    · exact (h.promised u n (hsame ▸ hn)).keeps hw.keeps
    · exact wake_level h.counted hev hp (by rwa [hp'] at hn)

omit [DecidableEq T] in
theorem initial_fed : Fed (initial : Threads T) :=
  ⟨initial_counted, level_zero _, fun _ _ h => by cases h⟩

omit [DecidableEq T] in
theorem Fed.not_lost (h : Fed s) : ¬Lost s := by
  rintro ⟨hpos, hne, hway⟩
  obtain ⟨t, ht⟩ := List.exists_mem_of_ne_nil _ hne
  obtain ⟨q, hq⟩ := h.counted.locked.on_cv ht
  obtain h0 | ⟨-, -, u, hu⟩ := h.level t (by rw [hq]; rfl)
  · simp [h0] at hpos
  · simp [hway u] at hu

/-- A sum that does not fit. -/
theorem Counted.refuses (h : Counted s) {inside : Bool} (hp : s.place t = .client inside (.write resid))
    (hwrap : 2^32 ≤ s.mem.shared.count.toNat + resid.toNat) :
    ∃ s', Synch.step move (t, op) s = .ok s' ∧ s'.mem.shared = s.mem.shared ∧
      s'.place t = .release .spin none (.idle (some .EFBIG)) := by
  have hin : inside = true := by
    have hfit := h.fits t
    simp_all [SemCounts.fits, busy]
  have hh : s.mem.holder = some t := (h.locked.holder t).mpr (by rw [hp, holds, hin])
  have h0 : resid ≠ 0 := by
    rintro rfl
    have := s.mem.shared.count.toNat_lt
    simp only [UInt32.toNat_zero] at hwrap
    omega
  have hm : move op t (.write resid) s.mem.shared = .ok (.release, .idle (some .EFBIG), s.mem.shared) := by
    have hlt := (wraps_iff s.mem.shared.count resid).mpr hwrap
    cases op <;> simp [move, semfsWrite, hlt, h0]
  refine ⟨s.goto t (.release .spin none (.idle (some .EFBIG))), ?_, rfl, by simp [State.goto]⟩
  simp only [Channels.step, hp, program, code, proceed, hm, enter, if_pos hh]

/-- What has been written is the count and what has been consumed, unless the
count has been set; a write whose sum does not fit fails and leaves the count as
it is; and no reader sleeps over a count that nobody is on the way to look at, if
every wakeup that finds the count above zero finds no reader asleep, or does not
raise it. -/
theorem sem_counts (as : List (T × Op)) (s : Threads T) (hr : Synch.run move as initial = .ok s) :
    (s.mem.shared.truncated = false →
      s.mem.shared.written = s.mem.shared.count.toNat + s.mem.shared.consumed) ∧
    (∀ t op inside resid, s.place t = .client inside (.write resid) →
      2^32 ≤ s.mem.shared.count.toNat + resid.toNat →
      ∃ s', Synch.step move (t, op) s = .ok s' ∧ s'.mem.shared = s.mem.shared ∧
        s'.place t = .release .spin none (.idle (some .EFBIG))) ∧
    (Runs.Guarded (Synch.step move) Calm as initial → ¬Lost s) := by
  have h : Counted s := Runs.run_invariant (fun _ _ _ h hs => step_counted h hs) initial_counted hr
  refine ⟨h.balanced, fun t op inside resid hp hwrap => h.refuses hp hwrap, ?_⟩
  intro hg
  exact (Runs.guarded_invariant (fun _ _ _ h hc hs => step_fed h hc hs) hg initial_fed hr).not_lost

instance decidableCalm (a : T × Op) (s : Threads T) : Decidable (Calm a s) :=
  match h : newcount s.mem.shared (s.place a.1) with
  | none => isTrue (fun n hn => by simp [h] at hn)
  | some n => decidable_of_iff (0 < s.mem.shared.count → s.mem.shared.count < n → s.chan (some ()) = [])
      ⟨fun hc _ hk => by rw [h] at hk; cases hk; exact hc, fun hc => hc n h⟩

instance decidableLost [Fintype T] (s : Threads T) : Decidable (Lost s) := by
  unfold Lost
  infer_instance

/-- Two readers sleep, a third thread writes one unit. -/
def oneUnit : List (Fin 3 × Op) :=
  List.replicate 12 (0, .read 1) ++ List.replicate 12 (1, .read 1) ++ List.replicate 14 (2, .write 1)

theorem oneUnit_counts :
    ∃ s, Synch.run move oneUnit initial = .ok s ∧ s.mem.shared.count = 1 ∧ s.chan (some ()) = [1] ∧ ¬Lost s := by
  obtain ⟨s, hr, hcount, hchan⟩ : ∃ s, Synch.run move oneUnit initial = .ok s ∧
      s.mem.shared.count = 1 ∧ s.chan (some ()) = [1] := by decide +kernel
  exact ⟨s, hr, hcount, hchan, (sem_counts oneUnit s hr).2.2 (by decide +kernel)⟩

/-- It writes a second unit before the reader it has woken gets the lock, and
that reader leaves with one. -/
def twoUnits : List (Fin 3 × Op) :=
  oneUnit ++ List.replicate 11 (2, .write 1) ++ List.replicate 11 (0, .read 1)

theorem wakeup_lost : ¬∀ (as : List (Fin 3 × Op)) s, Synch.run move as initial = .ok s → ¬Lost s := by
  intro hall
  obtain ⟨s, hr, hlost⟩ : ∃ s, Synch.run move twoUnits initial = .ok s ∧ Lost s := by decide +kernel
  exact hall twoUnits s hr hlost

end OS161.SemCounts
