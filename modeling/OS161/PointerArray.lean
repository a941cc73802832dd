import Mathlib.Data.List.Basic
import Mathlib.Logic.Function.Basic
import Mathlib.Tactic.Ring
import OS161.Runs
import OS161.Vfs

/-!
# Resizeable arrays

The tables of vnodes, of devices and of semaphores are arrays of pointers. One that is full
gets a block of twice the size, and what is in it is copied. The sizes are unsigned numbers
of 32 bits, and `kmalloc` may run out of memory.
-/

set_option autoImplicit false

namespace OS161.PointerArray

open Function OS161.Runs
open OS161.Vfs (Stop)

/-- The largest memory; no block is larger. -/
def maxram : ℕ := 512 * 1024 * 1024

/-- `v` points to a block with this many places. `copied` only counts what has been copied. -/
structure PtrArray (V : Type) where
  v : ℕ → V
  room : ℕ
  num : ℕ
  max : ℕ
  copied : ℕ

inductive Answer (V : Type) where
  | done
  | enomem
  | index (i : ℕ)
  | value (val : V)
  | count (n : ℕ)

/-- `fresh` is what `kmalloc` has: a block with any contents, or nothing. -/
inductive Action (V : Type) where
  | preallocate (num : ℕ) (fresh : Option (ℕ → V))
  | setsize (num : ℕ) (fresh : Option (ℕ → V))
  | add (val : V) (fresh : Option (ℕ → V))
  | remove (index : ℕ)
  | set (index : ℕ) (val : V)
  | get (index : ℕ)
  | num

variable {V : Type}

def kmalloc (size : ℕ) (fresh : Option (ℕ → V)) : Option (ℕ → V) := if size ≤ maxram then fresh else none

/-- The loop that doubles the size. It has come to its end after this many rounds, or goes round for ever. -/
def newmax : ℕ → ℕ → ℕ → Option ℕ
  | 0, _, _ => none
  | n+1, num, max => if max < num then newmax n num (if max = 0 then 4 else max * 2 % 2^32) else some max

def arrayInit (v : ℕ → V) : PtrArray V := ⟨v, 0, 0, 0, 0⟩

def arrayPreallocate (fresh : Option (ℕ → V)) (num : ℕ) (a : PtrArray V) : Except Stop (Answer V × PtrArray V) :=
  if a.max < num then
    match newmax 33 num a.max with
    | none => .error .blocked
    | some max =>
      match kmalloc (max * 4 % 2^32) fresh with
      | none => .ok (.enomem, a)
      | some newptr =>
        let room := max * 4 % 2^32 / 4
        -- memcpy
        if a.num ≤ a.room ∧ a.num ≤ room then
          .ok (.done, ⟨fun i => if i < a.num then a.v i else newptr i, room, a.num, max, a.copied + a.num⟩)
        else .error .outOfBounds
  else .ok (.done, a)

def arraySetsize (fresh : Option (ℕ → V)) (num : ℕ) (a : PtrArray V) : Except Stop (Answer V × PtrArray V) :=
  match arrayPreallocate fresh num a with
  | .ok (.done, a) => .ok (.done, { a with num := num })
  | result => result

def arrayAdd (fresh : Option (ℕ → V)) (val : V) (a : PtrArray V) : Except Stop (Answer V × PtrArray V) :=
  let index := a.num
  match arraySetsize fresh ((index+1) % 2^32) a with
  | .ok (.done, a) =>
    if index < a.room then .ok (.index index, { a with v := update a.v index val })
    else .error .outOfBounds
  | result => result

def arrayGet (index : ℕ) (a : PtrArray V) : Except Stop (Answer V × PtrArray V) :=
  if index < a.num then
    if index < a.room then .ok (.value (a.v index), a) else .error .outOfBounds
  else .error .panic

def arraySet (index : ℕ) (val : V) (a : PtrArray V) : Except Stop (Answer V × PtrArray V) :=
  if index < a.num then
    if index < a.room then .ok (.done, { a with v := update a.v index val }) else .error .outOfBounds
  else .error .panic

def arrayRemove (index : ℕ) (a : PtrArray V) : Except Stop (Answer V × PtrArray V) :=
  if a.num ≤ a.max ∧ index < a.num then
    -- memmove
    if a.num ≤ a.room then
      .ok (.done, { a with v := fun j => if index ≤ j ∧ j+1 < a.num then a.v (j+1) else a.v j, num := a.num - 1 })
    else .error .outOfBounds
  else .error .panic

def operate : Action V → PtrArray V → Except Stop (Answer V × PtrArray V)
  | .preallocate num fresh, a => arrayPreallocate fresh num a
  | .setsize num fresh, a => arraySetsize fresh num a
  | .add val fresh, a => arrayAdd fresh val a
  | .remove index, a => arrayRemove index a
  | .set index val, a => arraySet index val a
  | .get index, a => arrayGet index a
  | .num, a => .ok (.count a.num, a)

/-- An array with what its operations have answered. -/
structure State (V : Type) where
  array : PtrArray V
  answers : List (Answer V)

def step (a : Action V) (s : State V) : Except Stop (State V) :=
  match operate a s.array with
  | .ok (answer, array) => .ok ⟨array, s.answers ++ [answer]⟩
  | .error stop => .error stop

abbrev run : List (Action V) → State V → Except Stop (State V) := Runs.run step

def initial (v : ℕ → V) : State V := ⟨arrayInit v, []⟩

/-- What is in an array. -/
def contents (a : PtrArray V) : List V := (List.range a.num).map a.v

/-- What an operation does to a list, and what it answers. An array that grows has any elements at its end. -/
inductive Does : Action V → List V → Answer V → List V → Prop
  | preallocated (num : ℕ) (fresh : Option (ℕ → V)) (l : List V) : Does (.preallocate num fresh) l .done l
  | grown (fresh : Option (ℕ → V)) (l more : List V) : Does (.setsize (l.length + more.length) fresh) l .done (l ++ more)
  | shrunk (num : ℕ) (fresh : Option (ℕ → V)) (l : List V) (h : num ≤ l.length) : Does (.setsize num fresh) l .done (l.take num)
  | added (val : V) (fresh : Option (ℕ → V)) (l : List V) : Does (.add val fresh) l (.index l.length) (l ++ [val])
  | removed (index : ℕ) (l : List V) (h : index < l.length) : Does (.remove index) l .done (l.eraseIdx index)
  | stored (index : ℕ) (val : V) (l : List V) (h : index < l.length) : Does (.set index val) l .done (l.set index val)
  | got (index : ℕ) (val : V) (l : List V) (h : l[index]? = some val) : Does (.get index) l (.value val) l
  | counted (l : List V) : Does .num l (.count l.length) l
  | notPreallocated (num : ℕ) (fresh : Option (ℕ → V)) (l : List V) : Does (.preallocate num fresh) l .enomem l
  | notSet (num : ℕ) (fresh : Option (ℕ → V)) (l : List V) (h : l.length < num) : Does (.setsize num fresh) l .enomem l
  | notAdded (val : V) (fresh : Option (ℕ → V)) (l : List V) : Does (.add val fresh) l .enomem l

/-- One operation after the other. -/
inductive History : List (Action V) → List V → List (Answer V) → List V → Prop
  | nil (l : List V) : History [] l [] l
  | cons {a : Action V} {as : List (Action V)} {l l' l'' : List V} {answer : Answer V} {answers : List (Answer V)}
      (h : Does a l answer l') (hrest : History as l' answers l'') : History (a::as) l (answer::answers) l''

/-- No size is asked for whose number of bytes, or whose double, is too large for 32 bits. -/
def Action.Small : Action V → Prop
  | .preallocate size _ | .setsize size _ => size ≤ 2^29
  | _ => True

instance decidableSmall : DecidablePred (Action.Small : Action V → Prop)
  | .preallocate size _ | .setsize size _ => inferInstanceAs (Decidable (size ≤ 2^29))
  | .add _ _ | .remove _ | .set _ _ | .get _ | .num => isTrue trivial

/-- The index is outside of an array of this size. -/
def Action.Outside (n : ℕ) : Action V → Prop
  | .remove index | .set index _ | .get index => n ≤ index
  | _ => False

/-- How many elements an operation asks for. -/
def Action.asked : Action V → ℕ
  | .preallocate size _ | .setsize size _ => size
  | .add _ _ => 1
  | _ => 0

structure Inv (a : PtrArray V) : Prop where
  num : a.num ≤ a.max
  room : a.room = a.max
  power : a.max = 0 ∨ ∃ k, a.max = 2^(k+2) ∧ k+2 ≤ 27
  copied : a.copied ≤ a.max

/-- The block of an array is never smaller than before, and was made for as much as was asked for. -/
structure Grows (a a' : PtrArray V) (asked : ℕ) : Prop where
  max : a.max ≤ a'.max
  num : a'.num ≤ a.num + asked
  least : a'.max = a.max ∨ a'.max = 4 ∨ a'.max < 2 * (a.num + asked)

variable {a a' : PtrArray V} {act : Action V} {as : List (Action V)} {s s' : State V} {fresh : Option (ℕ → V)}
  {num index k : ℕ} {val : V}

/-! Doubling. -/

theorem newmax_power (n : ℕ) (hfuel : 29 < n + (k+2)) (hk : k+2 ≤ 29) (hnum : num ≤ 2^29) :
    ∃ k', newmax n num (2^(k+2)) = some (2^(k'+2)) ∧ k ≤ k' ∧ k'+2 ≤ 29 ∧ num ≤ 2^(k'+2) ∧ (k' = k ∨ 2^(k'+2) < 2 * num) := by
  induction n generalizing k with
  | zero => omega
  | succ n ih =>
    have hpos : 2^(k+2) ≠ 0 := (Nat.two_pow_pos _).ne'
    unfold newmax
    by_cases hless : 2^(k+2) < num
    · have hk' : k+2 < 29 := (Nat.pow_lt_pow_iff_right (by decide)).mp (hless.trans_le hnum)
      have hdouble : 2^(k+2) * 2 % 2^32 = 2^((k+1)+2) := by
        rw [← Nat.pow_succ, Nat.mod_eq_of_lt (Nat.pow_lt_pow_right (by decide) (by omega))]
      obtain ⟨k', heq, hle, hsmall, henough, hleast⟩ := ih (k := k+1) (by omega) (by omega)
      rw [if_pos hless, if_neg hpos, hdouble]
      refine ⟨k', heq, by omega, hsmall, henough, .inr ?_⟩
      obtain rfl | hless' := hleast
      · have hpow : 2^(k+1+2) = 2 * 2^(k+2) := by ring
        omega
      · exact hless'
    · rw [if_neg hless]
      exact ⟨k, rfl, le_rfl, hk, Nat.le_of_not_lt hless, .inl rfl⟩

/-- The size that a full array gets: enough, at least twice as much as it had, and not twice what is needed. -/
theorem newmax_spec (h : Inv a) (hfull : a.max < num) (hnum : num ≤ 2^29) :
    ∃ k, newmax 33 num a.max = some (2^(k+2)) ∧ k+2 ≤ 29 ∧ num ≤ 2^(k+2) ∧ 2 * a.max ≤ 2^(k+2) ∧
      (2^(k+2) = 4 ∨ 2^(k+2) < 2 * num) := by
  obtain hzero | ⟨k, hmax, hk⟩ := h.power
  · obtain ⟨k', heq, -, hsmall, henough, hleast⟩ := newmax_power (k := 0) 32 (by omega) (by omega) hnum
    refine ⟨k', ?_, hsmall, henough, by omega, ?_⟩
    · rw [hzero] at hfull ⊢
      rw [newmax, if_pos hfull, if_pos rfl]
      exact heq
    · obtain rfl | hless := hleast
      · exact .inl rfl
      · exact .inr hless
  · obtain ⟨k', heq, hle, hsmall, henough, hleast⟩ := newmax_power 33 (by omega) (by omega : k+2 ≤ 29) hnum
    rw [hmax] at hfull ⊢
    obtain rfl | hless := hleast
    · omega
    · refine ⟨k', heq, hsmall, henough, ?_, .inr hless⟩
      have hlt : k < k' := by
        refine lt_of_le_of_ne hle fun hsame => ?_
        subst hsame
        omega
      have hpow : 2^(k+1+2) ≤ 2^(k'+2) := Nat.pow_le_pow_right (by decide) (by omega)
      have hdouble : 2^(k+1+2) = 2 * 2^(k+2) := by ring
      omega

/-- From 2^31 on the double is zero in 32 bits, and the loop starts again. -/
theorem newmax_endless (hnum : 2^31 < num) (n : ℕ) {max : ℕ} (hmax : max = 0 ∨ ∃ k, max = 2^(k+2) ∧ k+2 ≤ 31) :
    newmax n num max = none := by
  induction n generalizing max with
  | zero => rfl
  | succ n ih =>
    obtain rfl | ⟨k, rfl, hk⟩ := hmax
    · rw [newmax, if_pos (by omega), if_pos rfl]
      exact ih (.inr ⟨0, rfl, by omega⟩)
    · have hle : 2^(k+2) ≤ 2^31 := Nat.pow_le_pow_right (by decide) hk
      have hpos : 2^(k+2) ≠ 0 := (Nat.two_pow_pos _).ne'
      rw [newmax, if_pos (by omega), if_neg hpos]
      refine ih ?_
      obtain hlast | hmore := Nat.eq_or_lt_of_le hk
      · left
        rw [hlast]
        rfl
      · right
        refine ⟨k+1, ?_, hmore⟩
        rw [← Nat.pow_succ, Nat.mod_eq_of_lt (Nat.pow_lt_pow_right (by decide) (by omega))]

theorem preallocate_endless (h : Inv a) (hnum : 2^31 < num) : arrayPreallocate fresh num a = .error .blocked := by
  have hsize : a.max = 0 ∨ ∃ k, a.max = 2^(k+2) ∧ k+2 ≤ 31 := by
    obtain hzero | ⟨k, hmax, hk⟩ := h.power
    · exact .inl hzero
    · exact .inr ⟨k, hmax, by omega⟩
  have hfull : a.max < num := by
    obtain hzero | ⟨k, hmax, hk⟩ := hsize
    · omega
    · have hle : 2^(k+2) ≤ 2^31 := Nat.pow_le_pow_right (by decide) hk
      omega
  rw [arrayPreallocate, if_pos hfull, newmax_endless hnum 33 hsize]

/-- Room is there afterwards, for as much as there was and as is asked for, or there is no memory and nothing has changed. -/
theorem preallocate_spec (fresh : Option (ℕ → V)) (h : Inv a) (hnum : num ≤ 2^29) :
    (arrayPreallocate fresh num a = .ok (.enomem, a) ∧ a.max < num) ∨
    ∃ a', arrayPreallocate fresh num a = .ok (.done, a') ∧ Inv a' ∧ num ≤ a'.max ∧ a'.num = a.num ∧
      (∀ i < a.num, a'.v i = a.v i) ∧ a.max ≤ a'.max ∧ (a'.max = a.max ∨ a'.max = 4 ∨ a'.max < 2 * num) := by
  unfold arrayPreallocate
  by_cases hfull : a.max < num
  · rw [if_pos hfull]
    obtain ⟨k, heq, hk, henough, hdouble, hleast⟩ := newmax_spec h hfull hnum
    rw [heq]
    dsimp only
    have hpow : 2^(k+2) ≤ 2^29 := Nat.pow_le_pow_right (by decide) hk
    have hbytes : 2^(k+2) * 4 % 2^32 = 2^(k+2) * 4 := Nat.mod_eq_of_lt (by omega)
    rw [hbytes, Nat.mul_div_cancel _ (by decide : 0 < 4)]
    cases hgot : kmalloc (2^(k+2) * 4) fresh with
    | none => exact .inl ⟨rfl, hfull⟩
    | some newptr =>
      have hsmall : 2^(k+2) * 4 ≤ maxram := by
        by_contra hlarge
        rw [kmalloc, if_neg hlarge] at hgot
        cases hgot
      have hk' : k+2 ≤ 27 := by
        have hless : 2^(k+2) < 2^28 := by
          unfold maxram at hsmall
          omega
        have := (Nat.pow_lt_pow_iff_right (by decide : 1 < 2)).mp hless
        omega
      have hold := h.num
      have hcopied := h.copied
      dsimp only
      rw [if_pos ⟨by rw [h.room]; exact hold, by omega⟩]
      refine .inr ⟨_, rfl, ⟨?_, rfl, .inr ⟨k, rfl, hk'⟩, ?_⟩, henough, rfl, fun i hi => if_pos hi, ?_, .inr hleast⟩
      · show a.num ≤ 2^(k+2)
        omega
      · show a.copied + a.num ≤ 2^(k+2)
        omega
      · show a.max ≤ 2^(k+2)
        omega
  · rw [if_neg hfull]
    exact .inr ⟨a, rfl, h, Nat.le_of_not_lt hfull, rfl, fun _ _ => rfl, le_rfl, .inl rfl⟩

theorem setsize_spec (fresh : Option (ℕ → V)) (h : Inv a) (hnum : num ≤ 2^29) :
    (arraySetsize fresh num a = .ok (.enomem, a) ∧ a.max < num) ∨
    ∃ a', arraySetsize fresh num a = .ok (.done, a') ∧ Inv a' ∧ a'.num = num ∧
      (∀ i < a.num, a'.v i = a.v i) ∧ a.max ≤ a'.max ∧ (a'.max = a.max ∨ a'.max = 4 ∨ a'.max < 2 * num) := by
  unfold arraySetsize
  obtain ⟨heq, hfull⟩ | ⟨a', heq, hinv, henough, -, hv, hmax, hleast⟩ := preallocate_spec fresh h hnum
  · rw [heq]
    exact .inl ⟨rfl, hfull⟩
  · rw [heq]
    exact .inr ⟨_, rfl, ⟨henough, hinv.room, hinv.power, hinv.copied⟩, rfl, hv, hmax, hleast⟩

/-! What is in an array. -/

theorem length_contents (a : PtrArray V) : (contents a).length = a.num := by simp [contents]

theorem contents_congr (hnum : a'.num = a.num) (hv : ∀ i < a.num, a'.v i = a.v i) : contents a' = contents a := by
  unfold contents
  rw [hnum]
  exact List.map_congr_left fun i hi => hv i (List.mem_range.mp hi)

theorem contents_take (hle : a'.num ≤ a.num) (hv : ∀ i < a'.num, a'.v i = a.v i) : contents a' = (contents a).take a'.num := by
  unfold contents
  rw [← List.map_take, List.take_range, Nat.min_eq_left hle]
  exact List.map_congr_left fun i hi => hv i (List.mem_range.mp hi)

theorem contents_grown (hle : a.num ≤ a'.num) (hv : ∀ i < a.num, a'.v i = a.v i) :
    ∃ more, contents a' = contents a ++ more ∧ a.num + more.length = a'.num := by
  refine ⟨(contents a').drop a.num, ?_, ?_⟩
  · rw [contents_take hle fun i hi => (hv i hi).symm, List.take_append_drop]
  · rw [List.length_drop, length_contents]
    omega

theorem contents_push (hnum : a'.num = a.num + 1) (hv : ∀ i < a.num, a'.v i = a.v i) : contents a' = contents a ++ [a'.v a.num] := by
  unfold contents
  rw [hnum, List.range_succ, List.map_append]
  exact congrArg (· ++ [a'.v a.num]) (List.map_congr_left fun i hi => hv i (List.mem_range.mp hi))

theorem contents_set (val : V) : contents { a with v := update a.v index val } = (contents a).set index val := by
  refine List.ext_getElem (by simp [contents]) fun i hi _ => ?_
  by_cases hsame : index = i
  · subst hsame
    simp [contents]
  · simp [contents, hsame, update_of_ne (Ne.symm hsame)]

theorem contents_remove (h : index < a.num) :
    contents { a with v := fun j => if index ≤ j ∧ j+1 < a.num then a.v (j+1) else a.v j, num := a.num - 1 } =
      (contents a).eraseIdx index := by
  refine List.ext_getElem (by simp [contents, List.length_eraseIdx, h]) fun i hi _ => ?_
  have hlt : i < a.num - 1 := by simpa [contents] using hi
  by_cases hbefore : i < index
  · simp [contents, List.getElem_eraseIdx, hbefore, Nat.not_le.mpr hbefore]
  · have hmoved : index ≤ i ∧ i+1 < a.num := ⟨Nat.le_of_not_lt hbefore, by omega⟩
    simp [contents, List.getElem_eraseIdx, hbefore, hmoved]

theorem contents_get (h : index < a.num) : (contents a)[index]? = some (a.v index) := by simp [contents, h]

/-! One operation. -/

theorem Inv.small (h : Inv a) : a.max ≤ 2^27 := by
  obtain hzero | ⟨k, hmax, hk⟩ := h.power
  · omega
  · rw [hmax]
    exact Nat.pow_le_pow_right (by decide) hk

theorem Grows.refl (a : PtrArray V) (n : ℕ) : Grows a a n := ⟨le_rfl, Nat.le_add_right _ _, .inl rfl⟩

theorem Grows.trans {a'' : PtrArray V} {m n : ℕ} (h : Grows a a' m) (h' : Grows a' a'' n) : Grows a a'' (m+n) := by
  have hnum := h.num
  have hnum' := h'.num
  refine ⟨h.max.trans h'.max, by omega, ?_⟩
  obtain hsame | hfour | hless := h'.least
  · obtain hfirst | hfirst | hfirst := h.least
    · exact .inl (hsame.trans hfirst)
    · exact .inr (.inl (hsame.trans hfirst))
    · exact .inr (.inr (by omega))
  · exact .inr (.inl hfour)
  · exact .inr (.inr (by omega))

/-- The element is at the end afterwards, or there is no memory and nothing has changed. -/
theorem add_spec (fresh : Option (ℕ → V)) (val : V) (h : Inv a) :
    (arrayAdd fresh val a = .ok (.enomem, a) ∧ a.max < a.num+1) ∨
    ∃ a', arrayAdd fresh val a = .ok (.index a.num, a') ∧ Inv a' ∧ contents a' = contents a ++ [val] ∧ Grows a a' 1 := by
  have hnum := h.num
  have hmax := h.small
  have hmod : (a.num+1) % 2^32 = a.num+1 := Nat.mod_eq_of_lt (by omega)
  unfold arrayAdd
  dsimp only
  rw [hmod]
  obtain ⟨heq, hfull⟩ | ⟨a', heq, hinv, hsize, hv, hmax', hleast⟩ := setsize_spec fresh h (by omega : a.num+1 ≤ 2^29)
  · rw [heq]
    exact .inl ⟨rfl, hfull⟩
  · have hroom : a.num < a'.room := by
      have hle := hinv.num
      rw [hinv.room]
      omega
    have hpush : contents { a' with v := update a'.v a.num val } = contents a ++ [update a'.v a.num val a.num] :=
      contents_push hsize fun i hi => (update_of_ne (Nat.ne_of_lt hi) _ _).trans (hv i hi)
    rw [update_self] at hpush
    rw [heq]
    dsimp only
    rw [if_pos hroom]
    exact .inr ⟨_, rfl, ⟨hinv.num, hinv.room, hinv.power, hinv.copied⟩, hpush, hmax', hsize.le, hleast⟩

/-- An operation does to the array what it does to a list, or its index is outside and an assertion fails. -/
theorem operate_spec (h : Inv a) (hsmall : act.Small) :
    (∃ answer a', operate act a = .ok (answer, a') ∧ Inv a' ∧ Does act (contents a) answer (contents a') ∧ Grows a a' act.asked) ∨
    (operate act a = .error .panic ∧ act.Outside a.num) := by
  have hlength := length_contents a
  have hnum := h.num
  cases act with
  | preallocate num fresh =>
    left
    obtain ⟨heq, -⟩ | ⟨a', heq, hinv, -, hsame, hv, hmax, hleast⟩ := preallocate_spec fresh h hsmall
    · exact ⟨_, _, heq, h, .notPreallocated _ _ _, .refl a _⟩
    · refine ⟨_, _, heq, hinv, ?_, hmax, by omega, ?_⟩
      · rw [contents_congr hsame hv]
        exact .preallocated _ _ _
      · simp only [Action.asked]
        omega
  | setsize num fresh =>
    left
    obtain ⟨heq, hfull⟩ | ⟨a', heq, hinv, hsize, hv, hmax, hleast⟩ := setsize_spec fresh h hsmall
    · exact ⟨_, _, heq, h, .notSet _ _ _ (by omega), .refl a _⟩
    · refine ⟨_, _, heq, hinv, ?_, hmax, ?_, ?_⟩
      · by_cases hle : a.num ≤ num
        · obtain ⟨more, hmore, hcount⟩ := contents_grown (hle.trans_eq hsize.symm) hv
          rw [hmore, ← hsize, ← hcount, ← hlength]
          exact .grown _ _ _
        · have hless : a'.num ≤ a.num := by omega
          rw [contents_take hless fun i hi => hv i (hi.trans_le hless), hsize]
          exact .shrunk _ _ _ (by omega)
      · simp only [Action.asked]
        omega
      · simp only [Action.asked]
        omega
  | add val fresh =>
    left
    obtain ⟨heq, -⟩ | ⟨a', heq, hinv, hpush, hgrows⟩ := add_spec fresh val h
    · exact ⟨_, _, heq, h, .notAdded _ _ _, .refl a _⟩
    · refine ⟨_, _, heq, hinv, ?_, hgrows⟩
      rw [hpush, ← hlength]
      exact .added _ _ _
  | remove index =>
    by_cases hin : index < a.num
    · left
      simp only [operate, arrayRemove]
      rw [if_pos ⟨hnum, hin⟩, if_pos (by rw [h.room]; exact hnum)]
      have hless : a.num - 1 ≤ a.num := Nat.sub_le _ _
      refine ⟨_, _, rfl, ⟨hless.trans hnum, h.room, h.power, h.copied⟩, ?_, le_rfl, hless, .inl rfl⟩
      rw [contents_remove hin]
      exact .removed _ _ (by omega)
    · right
      exact ⟨if_neg fun hboth => hin hboth.2, Nat.le_of_not_lt hin⟩
  | set index val =>
    by_cases hin : index < a.num
    · left
      simp only [operate, arraySet]
      rw [if_pos hin, if_pos (by rw [h.room]; omega)]
      refine ⟨_, _, rfl, ⟨hnum, h.room, h.power, h.copied⟩, ?_, le_rfl, Nat.le_add_right _ _, .inl rfl⟩
      rw [contents_set]
      exact .stored _ _ _ (by omega)
    · right
      exact ⟨if_neg hin, Nat.le_of_not_lt hin⟩
  | get index =>
    by_cases hin : index < a.num
    · left
      simp only [operate, arrayGet]
      rw [if_pos hin, if_pos (by rw [h.room]; omega)]
      exact ⟨_, _, rfl, h, .got _ _ _ (contents_get hin), .refl a _⟩
    · right
      exact ⟨if_neg hin, Nat.le_of_not_lt hin⟩
  | num =>
    left
    refine ⟨_, _, rfl, h, ?_, .refl a _⟩
    rw [← hlength]
    exact .counted _

/-! Runs. -/

theorem initial_inv (v : ℕ → V) : Inv (initial v).array := ⟨le_rfl, rfl, .inl rfl, le_rfl⟩

theorem step_spec (h : Inv s.array) (hsmall : act.Small) :
    (∃ answer s', step act s = .ok s' ∧ s'.answers = s.answers ++ [answer] ∧ Inv s'.array ∧
      Does act (contents s.array) answer (contents s'.array) ∧ Grows s.array s'.array act.asked) ∨
    (step act s = .error .panic ∧ act.Outside s.array.num) := by
  unfold step
  obtain ⟨answer, a', heq, hinv, hdoes, hgrows⟩ | ⟨heq, hout⟩ := operate_spec h hsmall
  · rw [heq]
    exact .inl ⟨answer, ⟨a', s.answers ++ [answer]⟩, rfl, rfl, hinv, hdoes, hgrows⟩
  · rw [heq]
    exact .inr ⟨rfl, hout⟩

/-- How many elements a run asks for. -/
def asked (as : List (Action V)) : ℕ := (as.map Action.asked).sum

theorem steps_do (h : Inv s.array) (hsmall : ∀ a ∈ as, a.Small) (hrun : run as s = .ok s') :
    (∃ answers, s'.answers = s.answers ++ answers ∧ History as (contents s.array) answers (contents s'.array)) ∧
    Inv s'.array ∧ Grows s.array s'.array (asked as) := by
  induction as generalizing s with
  | nil =>
    cases hrun
    exact ⟨⟨[], (List.append_nil _).symm, .nil _⟩, h, .refl _ _⟩
  | cons a as ih =>
    obtain ⟨s₁, hs, hrest⟩ := run_cons_ok.mp hrun
    obtain ⟨answer, s₂, heq, hanswers, hinv, hdoes, hgrows⟩ | ⟨heq, -⟩ := step_spec h (hsmall a List.mem_cons_self)
    · obtain rfl : s₁ = s₂ := Except.ok.inj (hs.symm.trans heq)
      obtain ⟨⟨answers, hmore, hhistory⟩, hinv', hgrows'⟩ := ih hinv (fun b hb => hsmall b (List.mem_cons_of_mem a hb)) hrest
      refine ⟨⟨answer::answers, ?_, .cons hdoes hhistory⟩, hinv', ?_⟩
      · rw [hmore, hanswers, List.append_assoc, List.singleton_append]
      · exact hgrows.trans hgrows'
    · rw [heq] at hs
      cases hs

variable {v : ℕ → V}

/-- Over any run an array is a list: every operation does to it and answers what it does for lists, whether or not there
is memory, and nothing stops the kernel but an index that is outside. -/
theorem run_arrays (hsmall : ∀ a ∈ as, a.Small) (hrun : run as (initial v) = .ok s) :
    History as [] s.answers (contents s.array) ∧
    ∀ a : Action V, a.Small → (∃ s', step a s = .ok s') ∨ (step a s = .error .panic ∧ a.Outside (contents s.array).length) := by
  obtain ⟨⟨answers, hanswers, hhistory⟩, hinv, -⟩ := steps_do (initial_inv v) hsmall hrun
  refine ⟨?_, fun a ha => ?_⟩
  · rw [hanswers]
    exact hhistory
  · obtain ⟨answer, s', heq, -⟩ | ⟨heq, hout⟩ := step_spec hinv ha
    · exact .inl ⟨s', heq⟩
    · rw [length_contents]
      exact .inr ⟨heq, hout⟩

/-- Five elements, for which the block is made and made anew, and some of them changed. -/
def filling : List (Action ℕ) :=
  (List.range 5).map (fun i => .add i (some fun _ => 0)) ++
  [.remove 1, .set 0 9, .get 2, .setsize 8 none, .setsize 9 none, .num, .setsize 2 none, .add 7 none]

theorem filling_arrays : ∃ s, run filling (initial fun _ => 0) = .ok s ∧ History filling [] s.answers (contents s.array) ∧
    ∀ a : Action ℕ, a.Small → (∃ s', step a s = .ok s') ∨ (step a s = .error .panic ∧ a.Outside (contents s.array).length) :=
  ⟨_, rfl, run_arrays (by decide) (rfl : run filling (initial fun _ => 0) = .ok _)⟩

/-- All the copying of a run is linear in what the run asks for, and so is the memory. -/
theorem run_costs (hsmall : ∀ a ∈ as, a.Small) (hrun : run as (initial v) = .ok s) :
    s.array.copied ≤ s.array.max ∧ (s.array.max ≤ 4 ∨ s.array.max < 2 * asked as) := by
  obtain ⟨-, hinv, hgrows⟩ := steps_do (initial_inv v) hsmall hrun
  refine ⟨hinv.copied, ?_⟩
  obtain hsame | hfour | hless := hgrows.least
  · left
    rw [hsame]
    exact Nat.zero_le 4
  · exact .inl hfour.le
  · right
    have hnone : (initial v).array.num = 0 := rfl
    omega

theorem filling_costs : ∃ s, run filling (initial fun _ => 0) = .ok s ∧
    s.array.copied ≤ s.array.max ∧ (s.array.max ≤ 4 ∨ s.array.max < 2 * asked filling) :=
  ⟨_, rfl, run_costs (by decide) (rfl : run filling (initial fun _ => 0) = .ok _)⟩

end OS161.PointerArray
