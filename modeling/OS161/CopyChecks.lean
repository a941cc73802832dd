import OS161.CopyInOut

/-!
# What the range check guarantees

Blocks are copied exactly if they lie below the end of the user's part of
memory, and strings as far as that end. The two loops are looked at first, for
any source and destination; where a byte cannot be read or written they end.
-/

set_option autoImplicit false

namespace OS161.CopyChecks

open Function OS161.Vfs OS161.CopyInOut

section Loops

variable {β : Type} {src src' : ℕ → Option UInt8} {writable writable' : ℕ → Bool}
  {put : ℕ → UInt8 → β → β} {e : Errno} {i n k : ℕ} {d d' : β}

/-- The copy cannot get past byte `j`. -/
def Faults (src : ℕ → Option UInt8) (writable : ℕ → Bool) (j : ℕ) : Prop := src j = none ∨ writable j = false

/-- Byte `j` is copied and does not end the string. -/
def Passes (src : ℕ → Option UInt8) (writable : ℕ → Bool) (j : ℕ) : Prop :=
  ¬Faults src writable j ∧ src j ≠ some 0

theorem copied_of_not_faults {j : ℕ} (h : ¬Faults src writable j) : ∃ b, src j = some b ∧ writable j = true := by
  cases hs : src j with
  | none => exact absurd (.inl hs) h
  | some b =>
    cases hw : writable j with
    | false => exact absurd (.inr hw) h
    | true => exact ⟨b, rfl, rfl⟩

/-- A byte that is copied is put in its place. -/
theorem memcpy_succ {b : UInt8} (hs : src i = some b) (hw : writable i = true) :
    memcpy src writable put i (n+1) d = memcpy src writable put (i+1) n (put i b d) := by
  simp [memcpy, hs, hw]

theorem memcpy_fault (h : Faults src writable i) : memcpy src writable put i (n+1) d = (false, d) := by
  simp only [memcpy]
  split
  · rfl
  · next b hs =>
    obtain hnone | hw := h
    · rw [hs] at hnone
      cases hnone
    · simp [hw]

theorem memcpy_ok_iff : (memcpy src writable put i n d).1 = true ↔ ∀ j, i ≤ j → j < i+n → ¬Faults src writable j := by
  induction n generalizing i d with
  | zero =>
    simp only [memcpy, true_iff]
    intro j hij hj
    omega
  | succ n ih =>
    by_cases hf : Faults src writable i
    · rw [memcpy_fault hf]
      simp only [Bool.false_eq_true, false_iff]
      intro hall
      exact hall i (Nat.le_refl i) (by omega) hf
    · obtain ⟨b, hs, hw⟩ := copied_of_not_faults hf
      rw [memcpy_succ hs hw, ih]
      constructor
      · intro hall j hij hj
        by_cases hji : j = i
        · rwa [hji]
        · exact hall j (by omega) (by omega)
      · intro hall j hij hj
        exact hall j (by omega) (by omega)

theorem copystr_fault (h : Faults src writable i) :
    copystr src writable put e i (n+1) d = ⟨some .efault, none, d⟩ := by
  simp only [copystr]
  split
  · rfl
  · next b hs =>
    obtain hnone | hw := h
    · rw [hs] at hnone
      cases hnone
    · simp [hw]

theorem copystr_nul (hs : src i = some 0) (hw : writable i = true) :
    copystr src writable put e i (n+1) d = ⟨none, some (i+1), put i 0 d⟩ := by
  simp [copystr, hs, hw]

theorem copystr_passes {b : UInt8} (hs : src i = some b) (hw : writable i = true) (hb : b ≠ 0) :
    copystr src writable put e i (n+1) d = copystr src writable put e (i+1) n (put i b d) := by
  simp [copystr, hs, hw, hb]

/-- What is looked at by a loop that gets as far as byte `k` is byte `k`. -/
theorem copystr_skip (hpass : ∀ j, i ≤ j → j < i+k → Passes src writable j) :
    ∃ d', copystr src writable put e i (k+n) d = copystr src writable put e (i+k) n d' := by
  induction k generalizing i d with
  | zero => exact ⟨d, by rw [Nat.zero_add, Nat.add_zero]⟩
  | succ k ih =>
    obtain ⟨hf, hne⟩ := hpass i (Nat.le_refl i) (by omega)
    obtain ⟨b, hs, hw⟩ := copied_of_not_faults hf
    have hb : b ≠ 0 := by
      rintro rfl
      exact hne hs
    obtain ⟨d', hd'⟩ := ih (i := i+1) (d := put i b d) (fun j hij hj => hpass j (by omega) (by omega))
    refine ⟨d', ?_⟩
    rw [show k+1+n = k+n+1 by omega, copystr_passes hs hw hb, hd', show i+1+k = i+(k+1) by omega]

/-- Where two sources and destinations agree, so do the copies. -/
theorem copystr_related {R : β → β → Prop} (hsrc : ∀ j, i ≤ j → j < i+n → src j = src' j)
    (hwritable : ∀ j, i ≤ j → j < i+n → writable j = writable' j)
    (hput : ∀ j, i ≤ j → j < i+n → ∀ b d d', R d d' → R (put j b d) (put j b d')) (h : R d d') :
    (copystr src writable put e i n d).err = (copystr src' writable' put e i n d').err ∧
      (copystr src writable put e i n d).gotlen = (copystr src' writable' put e i n d').gotlen ∧
      R (copystr src writable put e i n d).dest (copystr src' writable' put e i n d').dest := by
  induction n generalizing i d d' with
  | zero => exact ⟨rfl, rfl, h⟩
  | succ n ih =>
    have hs := hsrc i (Nat.le_refl i) (by omega)
    have hw := hwritable i (Nat.le_refl i) (by omega)
    by_cases hf : Faults src writable i
    · have hf' : Faults src' writable' i := by
        unfold Faults at hf ⊢
        rwa [← hs, ← hw]
      rw [copystr_fault hf, copystr_fault hf']
      exact ⟨rfl, rfl, h⟩
    · obtain ⟨b, hb, hwb⟩ := copied_of_not_faults hf
      have hb' : src' i = some b := by rw [← hs, hb]
      have hwb' : writable' i = true := by rw [← hw, hwb]
      have hnext := hput i (Nat.le_refl i) (by omega) b d d' h
      by_cases hz : b = 0
      · subst hz
        rw [copystr_nul hb hwb, copystr_nul hb' hwb']
        exact ⟨rfl, rfl, hnext⟩
      · rw [copystr_passes hb hwb hz, copystr_passes hb' hwb' hz]
        exact ih (fun j hij hj => hsrc j (by omega) (by omega)) (fun j hij hj => hwritable j (by omega) (by omega))
          (fun j hij hj => hput j (by omega) (by omega)) hnext

/-- How a string copy that may look at `limit` bytes has to come out, if `e` is
the error for a string that is longer. -/
structure StringRight (src : ℕ → Option UInt8) (writable : ℕ → Bool) (limit : ℕ) (e : Errno) (r : Copied β) : Prop where
  succeeds : r.err = none ↔ ∃ k < limit, src k = some 0 ∧ ∀ j ≤ k, ¬Faults src writable j
  gotlen : ∀ k < limit, (∀ j < k, Passes src writable j) → src k = some 0 → r.err = none → r.gotlen = some (k+1)
  long : (∀ k < limit, Passes src writable k) → r.err = some e
  faults : ∀ k < limit, (∀ j < k, Passes src writable j) → Faults src writable k → r.err = some .efault

/-- The first byte that does not pass, if there is one. -/
theorem first_stop (src : ℕ → Option UInt8) (writable : ℕ → Bool) (limit : ℕ) :
    (∀ k < limit, Passes src writable k) ∨
      ∃ k < limit, (∀ j < k, Passes src writable j) ∧ ¬Passes src writable k := by
  induction limit with
  | zero => exact .inl (fun k hk => absurd hk (Nat.not_lt_zero k))
  | succ n ih =>
    obtain hall | ⟨k, hk, hbefore, hstop⟩ := ih
    · by_cases hn : Passes src writable n
      · left
        intro k hk
        obtain hlt | rfl := Nat.lt_succ_iff_lt_or_eq.mp hk
        · exact hall k hlt
        · exact hn
      · exact .inr ⟨n, Nat.lt_succ_self n, hall, hn⟩
    · exact .inr ⟨k, by omega, hbefore, hstop⟩

theorem copystr_right {limit : ℕ} : StringRight src writable limit e (copystr src writable put e 0 limit d) := by
  have hlong : (∀ k < limit, Passes src writable k) → (copystr src writable put e 0 limit d).err = some e := by
    intro hall
    have hskip : ∃ d', copystr src writable put e 0 (limit+0) d = copystr src writable put e (0+limit) 0 d' :=
      copystr_skip (fun j _ hj => hall j (by omega))
    obtain ⟨d', hd'⟩ := hskip
    rw [Nat.add_zero] at hd'
    rw [hd']
    rfl
  have hreach : ∀ k < limit, (∀ j < k, Passes src writable j) → ∃ m d',
      copystr src writable put e 0 limit d = copystr src writable put e k (m+1) d' := by
    intro k hk hbefore
    have hskip : ∃ d', copystr src writable put e 0 (k+(limit-k)) d =
        copystr src writable put e (0+k) (limit-k) d' :=
      copystr_skip (fun j _ hj => hbefore j (by omega))
    obtain ⟨d', hd'⟩ := hskip
    refine ⟨limit-k-1, d', ?_⟩
    rw [show k+(limit-k) = limit by omega, Nat.zero_add] at hd'
    rw [hd', show limit-k-1+1 = limit-k by omega]
  have hfaults : ∀ k < limit, (∀ j < k, Passes src writable j) → Faults src writable k →
      (copystr src writable put e 0 limit d).err = some .efault := by
    intro k hk hbefore hf
    obtain ⟨m, d', hd'⟩ := hreach k hk hbefore
    rw [hd', copystr_fault hf]
  have hnul : ∀ k < limit, (∀ j < k, Passes src writable j) → src k = some 0 → writable k = true →
      (copystr src writable put e 0 limit d).err = none ∧
        (copystr src writable put e 0 limit d).gotlen = some (k+1) := by
    intro k hk hbefore hs hw
    obtain ⟨m, d', hd'⟩ := hreach k hk hbefore
    rw [hd', copystr_nul hs hw]
    exact ⟨rfl, rfl⟩
  refine ⟨?_, ?_, hlong, hfaults⟩
  · obtain hall | ⟨k, hk, hbefore, hstop⟩ := first_stop src writable limit
    · rw [hlong hall]
      simp only [reduceCtorEq, false_iff]
      rintro ⟨k, hk, hs, -⟩
      exact (hall k hk).2 hs
    · by_cases hf : Faults src writable k
      · rw [hfaults k hk hbefore hf]
        simp only [reduceCtorEq, false_iff]
        rintro ⟨k', hk', hs, hno⟩
        by_cases hkk : k' < k
        · exact (hbefore k' hkk).2 hs
        · exact hno k (by omega) hf
      · have hs : src k = some 0 := by
          by_contra hne
          exact hstop ⟨hf, hne⟩
        obtain ⟨b, -, hw⟩ := copied_of_not_faults hf
        rw [(hnul k hk hbefore hs hw).1]
        simp only [true_iff]
        refine ⟨k, hk, hs, ?_⟩
        intro j hj
        obtain hlt | rfl := Nat.lt_or_eq_of_le hj
        · exact (hbefore j hlt).1
        · exact hf
  · intro k hk hbefore hs hok
    cases hw : writable k with
    | true => exact (hnul k hk hbefore hs hw).2
    | false =>
      rw [hfaults k hk hbefore (.inr hw)] at hok
      cases hok

end Loops

/-- A block is copied out byte for byte, and nothing beside it changes. -/
theorem memcpy_out {m d : UserMemory} {i n : ℕ} (src : Buffer) (p : ℕ) (hw : ∀ j, i ≤ j → j < i+n → m (p+j) ≠ none) :
    ∃ d', memcpy (fun j => some (src j)) (fun j => (m (p+j)).isSome) (putOut p) i n d = (true, d') ∧
      (∀ j, i ≤ j → j < i+n → d' (p+j) = some (src j)) ∧ ∀ a, ¬(p+i ≤ a ∧ a < p+i+n) → d' a = d a := by
  induction n generalizing i d with
  | zero =>
    refine ⟨d, rfl, ?_, fun _ _ => rfl⟩
    intro j hij hj
    omega
  | succ n ih =>
    have hi : (m (p+i)).isSome = true := Option.isSome_iff_ne_none.mpr (hw i (Nat.le_refl i) (by omega))
    obtain ⟨d', hcopy, hbytes, houtside⟩ := ih (i := i+1) (d := putOut p i (src i) d)
      (fun j hij hj => hw j (by omega) (by omega))
    refine ⟨d', ?_, ?_, ?_⟩
    · rw [memcpy_succ rfl hi, hcopy]
    · intro j hij hj
      by_cases hji : j = i
      · rw [hji, houtside (p+i) (by omega)]
        simp [putOut]
      · exact hbytes j (by omega) (by omega)
    · intro a ha
      rw [houtside a (by omega)]
      exact update_of_ne (by omega) _ _

/-- The outcome of a block copy that the check has let through. -/
def copied {β : Type} (r : Bool × β) : Option Errno × β := (if r.1 then none else some .efault, r.2)

/-- How far a string copy may go. -/
def limit (p len : ℕ) : ℕ := min len (USERSPACETOP-p)

/-- The error for a string that goes on past the limit. -/
def limitError (p len : ℕ) : Errno := if len ≤ USERSPACETOP-p then .enametoolong else .efault

/-- Two memories are the same in the user's part. -/
def SameBelow (m m' : UserMemory) : Prop := ∀ a < USERSPACETOP, m a = m' a

structure BlocksChecked (p len : ℕ) : Prop where
  copyin : ∀ m dest, copyin m p len dest = if p+len ≤ USERSPACETOP
    then copied (memcpy (fun i => m (p+i)) (fun _ => true) putIn 0 len dest) else (some .efault, dest)
  copyout : ∀ src m, copyout src p len m = if p+len ≤ USERSPACETOP
    then copied (memcpy (fun i => some (src i)) (fun i => (m (p+i)).isSome) (putOut p) 0 len m) else (some .efault, m)
  copyinFault : p+len ≤ USERSPACETOP → ∀ m dest,
    (CopyInOut.copyin m p len dest).1 = none ↔ ∀ i < len, m (p+i) ≠ none
  copyoutFault : p+len ≤ USERSPACETOP → ∀ src m,
    (CopyInOut.copyout src p len m).1 = none ↔ ∀ i < len, m (p+i) ≠ none

structure StringsChecked (p len : ℕ) : Prop where
  copyinstrUntouched : ∀ m m' dest, SameBelow m m' →
    (copyinstr m p len dest).err = (copyinstr m' p len dest).err ∧
    (copyinstr m p len dest).gotlen = (copyinstr m' p len dest).gotlen ∧
    (copyinstr m p len dest).dest = (copyinstr m' p len dest).dest
  copyoutstrUntouched : ∀ src m m', SameBelow m m' →
    (copyoutstr src p len m).err = (copyoutstr src p len m').err ∧
    (copyoutstr src p len m).gotlen = (copyoutstr src p len m').gotlen ∧
    SameBelow (copyoutstr src p len m).dest (copyoutstr src p len m').dest ∧
    ∀ a, USERSPACETOP ≤ a → (copyoutstr src p len m).dest a = m a
  copyinstr : p < USERSPACETOP → len ≤ 2^31 → ∀ m dest,
    StringRight (fun i => m (p+i)) (fun _ => true) (limit p len) (limitError p len) (copyinstr m p len dest)
  copyoutstr : p < USERSPACETOP → len ≤ 2^31 → ∀ src m,
    StringRight (fun i => some (src i)) (fun i => (m (p+i)).isSome) (limit p len) (limitError p len)
      (copyoutstr src p len m)
  copyinstrFault : ∀ m dest, ∀ k < limit p len, (∀ j < k, Passes (fun i => m (p+i)) (fun _ => true) j) →
    m (p+k) = none → (CopyInOut.copyinstr m p len dest).err = some .efault
  copyoutstrFault : ∀ src m, ∀ k < limit p len,
    (∀ j < k, Passes (fun i => some (src i)) (fun i => (m (p+i)).isSome) j) →
    m (p+k) = none → (CopyInOut.copyoutstr src p len m).err = some .efault

variable {p len : ℕ} {β : Type}

theorem copyBlock_eq (hp : p < 2^32) (hlen : 1 ≤ len) (hlen' : len < 2^32) (copy : ℕ → Bool × β) (dest : β) :
    copyBlock p len copy dest = if p+len ≤ USERSPACETOP then copied (copy len) else (some .efault, dest) := by
  unfold copyBlock
  rw [copycheck_eq hp hlen hlen']
  by_cases hout : USERSPACETOP ≤ p ∨ 2^32 < p+len
  · have hover : ¬p+len ≤ USERSPACETOP := by
      unfold USERSPACETOP at hout ⊢
      omega
    rw [if_pos hout, if_neg hover]
  · rw [if_neg hout]
    by_cases hfits : p+len ≤ USERSPACETOP
    · simp only [if_pos hfits, ne_eq, not_true_eq_false, if_false]
      obtain ⟨ok, d⟩ := copy len
      cases ok <;> rfl
    · have hshort : USERSPACETOP-p ≠ len := by omega
      simp only [if_neg hfits, ne_eq, hshort, not_false_eq_true, if_true]

/-- A block is copied if the check lets it through and the copy is whole. -/
theorem copyBlock_none {copy : ℕ → Bool × β} {dest : β} :
    (copyBlock p len copy dest).1 = none ↔ copycheck p len = some len ∧ (copy len).1 = true := by
  unfold copyBlock
  cases hcheck : copycheck p len with
  | none => simp
  | some stoplen =>
    by_cases hlen : stoplen = len
    · cases hcopy : copy len with
      | mk ok d => cases ok <;> simp [hlen]
    · simp [hlen]

theorem copyBlock_dest {copy : ℕ → Bool × β} {dest : β} (h : (copyBlock p len copy dest).1 = none) :
    (copyBlock p len copy dest).2 = (copy len).2 := by
  obtain ⟨hcheck, hok⟩ := copyBlock_none.mp h
  cases hcopy : copy len with
  | mk ok d =>
    rw [hcopy] at hok
    cases hok
    simp [copyBlock, hcheck, hcopy]

/-- The block starts above the user's part or wraps around. -/
def Out (p len : ℕ) : Prop := USERSPACETOP ≤ p ∨ 2^32 < p+len

theorem copyString_refused (hp : p < 2^32) (hlen : 1 ≤ len) (hlen' : len < 2^32) (hout : Out p len)
    (copy : Errno → ℕ → Copied β) (dest : β) : copyString p len copy dest = ⟨some .efault, none, dest⟩ := by
  unfold copyString
  unfold Out at hout
  rw [copycheck_eq hp hlen hlen', if_pos hout]

/-- Otherwise the loop goes as far as the limit. -/
theorem copyString_goes (hp : p < 2^32) (hlen : 1 ≤ len) (hlen' : len < 2^32) (hin : ¬Out p len)
    (copy : Errno → ℕ → Copied β) (dest : β) :
    copyString p len copy dest = copy (limitError p len) (limit p len) := by
  unfold copyString
  unfold Out at hin
  rw [copycheck_eq hp hlen hlen', if_neg hin]
  by_cases hfits : p+len ≤ USERSPACETOP
  · rw [if_pos hfits]
    have hlimit : limit p len = len := Nat.min_eq_left (by omega)
    have herror : limitError p len = .enametoolong := if_pos (by omega)
    rw [hlimit, herror]
    simp [copystrError]
  · rw [if_neg hfits]
    have hshort : USERSPACETOP-p < len := by omega
    have herror : limitError p len = .efault := if_neg (by omega)
    simp only [herror, limit, copystrError, if_pos hshort]

theorem limit_below {i : ℕ} (h : i < limit p len) : p+i < USERSPACETOP := by
  unfold limit at h
  omega

theorem copied_none {r : Bool × β} : (copied r).1 = none ↔ r.1 = true := by
  cases h : r.1 <;> simp [copied, h]

theorem blocks_checked (hp : p < 2^32) (hlen : 1 ≤ len) (hlen' : len < 2^32) : BlocksChecked p len := by
  have hin : ∀ m dest, CopyInOut.copyin m p len dest = if p+len ≤ USERSPACETOP
      then copied (memcpy (fun i => m (p+i)) (fun _ => true) putIn 0 len dest) else (some .efault, dest) :=
    fun m dest => copyBlock_eq hp hlen hlen' _ dest
  have hout : ∀ src m, CopyInOut.copyout src p len m = if p+len ≤ USERSPACETOP
      then copied (memcpy (fun i => some (src i)) (fun i => (m (p+i)).isSome) (putOut p) 0 len m)
      else (some .efault, m) :=
    fun src m => copyBlock_eq hp hlen hlen' _ m
  refine ⟨hin, hout, ?_, ?_⟩
  · intro hfits m dest
    rw [hin, if_pos hfits, copied_none, memcpy_ok_iff]
    constructor
    · intro hall i hi hnone
      exact hall i (Nat.zero_le i) (by omega) (.inl hnone)
    · intro hall i _ hi
      rintro (hnone | hw)
      · exact hall i (by omega) hnone
      · cases hw
  · intro hfits src m
    rw [hout, if_pos hfits, copied_none, memcpy_ok_iff]
    constructor
    · intro hall i hi hnone
      exact hall i (Nat.zero_le i) (by omega) (.inr (by simp [hnone]))
    · intro hall i _ hi
      rintro (hnone | hw)
      · cases hnone
      · exact hall i (by omega) (by simpa using hw)

/-- Stores below the end of the user's part keep two memories the same there, and
what lies above as it was. -/
theorem putOut_related {m d d' : UserMemory} {j : ℕ} (hj : p+j < USERSPACETOP) (b : UInt8)
    (h : SameBelow d d' ∧ ∀ a, USERSPACETOP ≤ a → d a = m a) :
    SameBelow (putOut p j b d) (putOut p j b d') ∧ ∀ a, USERSPACETOP ≤ a → putOut p j b d a = m a := by
  constructor
  · intro a ha
    by_cases hapj : a = p+j
    · simp [putOut, hapj]
    · simp only [putOut, update_of_ne hapj]
      exact h.1 a ha
  · intro a ha
    have hapj : a ≠ p+j := by omega
    simp only [putOut, update_of_ne hapj]
    exact h.2 a ha

theorem strings_checked (hp : p < 2^32) (hlen : 1 ≤ len) (hlen' : len < 2^32) : StringsChecked p len := by
  have hnowrap : p < USERSPACETOP → len ≤ 2^31 → ¬Out p len := by
    unfold Out USERSPACETOP
    omega
  constructor
  · intro m m' dest hsame
    unfold CopyInOut.copyinstr
    by_cases hout : Out p len
    · rw [copyString_refused hp hlen hlen' hout, copyString_refused hp hlen hlen' hout]
      exact ⟨rfl, rfl, rfl⟩
    · rw [copyString_goes hp hlen hlen' hout, copyString_goes hp hlen hlen' hout]
      apply copystr_related
      · intro j _ hj
        have hbelow : p+j < USERSPACETOP := limit_below (show j < limit p len by omega)
        exact hsame _ hbelow
      · intro j _ _
        rfl
      · rintro j _ _ b d _ rfl
        rfl
      · rfl
  · intro src m m' hsame
    unfold CopyInOut.copyoutstr
    by_cases hout : Out p len
    · rw [copyString_refused hp hlen hlen' hout, copyString_refused hp hlen hlen' hout]
      exact ⟨rfl, rfl, hsame, fun _ _ => rfl⟩
    · rw [copyString_goes hp hlen hlen' hout, copyString_goes hp hlen hlen' hout]
      apply copystr_related (R := fun d d' => SameBelow d d' ∧ ∀ a, USERSPACETOP ≤ a → d a = m a)
      · intro j _ _
        rfl
      · intro j _ hj
        have hbelow : p+j < USERSPACETOP := limit_below (show j < limit p len by omega)
        rw [hsame _ hbelow]
      · intro j _ hj b d d' hd
        exact putOut_related (limit_below (show j < limit p len by omega)) b hd
      · exact ⟨hsame, fun _ _ => rfl⟩
  · intro hbelow hsmall m dest
    unfold CopyInOut.copyinstr
    rw [copyString_goes hp hlen hlen' (hnowrap hbelow hsmall)]
    exact copystr_right
  · intro hbelow hsmall src m
    unfold CopyInOut.copyoutstr
    rw [copyString_goes hp hlen hlen' (hnowrap hbelow hsmall)]
    exact copystr_right
  · intro m dest k hk hbefore hfault
    unfold CopyInOut.copyinstr
    by_cases hout : Out p len
    · rw [copyString_refused hp hlen hlen' hout]
    · rw [copyString_goes hp hlen hlen' hout]
      exact copystr_right.faults k hk hbefore (.inl hfault)
  · intro src m k hk hbefore hfault
    unfold CopyInOut.copyoutstr
    by_cases hout : Out p len
    · rw [copyString_refused hp hlen hlen' hout]
    · rw [copyString_goes hp hlen hlen' hout]
      exact copystr_right.faults k hk hbefore (.inr (by simp [hfault]))

/-- No address and no length gets a copy past the end of the user's part of memory. -/
theorem copies_checked (hp : p < 2^32) (hlen : 1 ≤ len) (hlen' : len < 2^32) :
    BlocksChecked p len ∧ StringsChecked p len :=
  ⟨blocks_checked hp hlen hlen', strings_checked hp hlen hlen'⟩

/-- The last 16 bytes of the user's part. -/
theorem last_checked : BlocksChecked 0x7ffffff0 16 ∧ StringsChecked 0x7ffffff0 16 :=
  copies_checked (by decide) (by decide) (by decide)

end OS161.CopyChecks
