import Mathlib.Data.List.Basic
import OS161.FirstFit
import OS161.Runs
import OS161.Vfs

/-!
# Bitmaps

The bits of a bitmap are packed in words, the first bit of a word in its lowest
place. When the last word is not used up, the bits that are left over are marked
when the bitmap is made, so that a search by words does not hand them out.
-/

set_option autoImplicit false

namespace OS161.Bitmaps

open OS161.FirstFit OS161.Runs OS161.Vfs

def BITS_PER_WORD : ℕ := 8

/-- A `WORD_TYPE`. -/
abbrev Word := BitVec 8

def WORD_ALLBITS : Word := 0xff

structure Bitmap where
  nbits : ℕ
  v : List Word
  deriving DecidableEq

/-- The words for `nbits` bits, rounded up in 32 bits. -/
def words (nbits : ℕ) : ℕ := (nbits + BITS_PER_WORD - 1) % 2^32 / BITS_PER_WORD

def mask (offset : ℕ) : Word := (1 : Word) <<< offset

/-- The loop of `bitmap_create` over the bits left over in word `ix`, with `left` of them from `j` on. -/
def tailLoop (ix : ℕ) : (left j : ℕ) → List Word → Except Stop (List Word)
  | 0, _, v => .ok v
  | left+1, j, v =>
    match v[ix]? with
    | none => .error .outOfBounds
    | some w => tailLoop ix left (j+1) (v.set ix (w ||| mask j))

/-- Without memory for the bitmap or for its words there is no bitmap. -/
def bitmapCreate (nbits : ℕ) (gotBitmap gotWords : Bool) : Except Stop (Option Bitmap) :=
  if !gotBitmap || !gotWords then .ok none
  else
    let v := List.replicate (words nbits) 0
    if nbits / BITS_PER_WORD < words nbits then
      let ix := words nbits - 1
      let overbits := nbits - ix * BITS_PER_WORD
      if nbits / BITS_PER_WORD ≠ words nbits - 1 then .error .panic
      else if ¬(0 < overbits ∧ overbits < BITS_PER_WORD) then .error .panic
      else
        match tailLoop ix (BITS_PER_WORD - overbits) overbits v with
        | .error stop => .error stop
        | .ok v' => .ok (some ⟨nbits, v'⟩)
    else .ok (some ⟨nbits, v⟩)

/-- The loop over the bits of a word, with `left` of them from `offset` on. -/
def offsetLoop (w : Word) : (left offset : ℕ) → Option ℕ
  | 0, _ => none
  | left+1, offset => if w &&& mask offset = 0 then some offset else offsetLoop w left (offset+1)

/-- The loop over the words, with `left` of them from `ix` on. -/
def wordLoop (b : Bitmap) : (left ix : ℕ) → Except Stop (Except Errno ℕ × Bitmap)
  | 0, _ => .ok (.error .enospc, b)
  | left+1, ix =>
    match b.v[ix]? with
    | none => .error .outOfBounds
    | some w =>
      if w ≠ WORD_ALLBITS then
        match offsetLoop w BITS_PER_WORD 0 with
        | none => .error .panic
        | some offset =>
          let index := (ix * BITS_PER_WORD + offset) % 2^32
          if b.nbits ≤ index then .error .panic
          else .ok (.ok index, { b with v := b.v.set ix (w ||| mask offset) })
      else wordLoop b left (ix+1)

def bitmapAlloc (b : Bitmap) : Except Stop (Except Errno ℕ × Bitmap) := wordLoop b (words b.nbits) 0

def bitmapTranslate (bitno : ℕ) : ℕ × Word := (bitno / BITS_PER_WORD, mask (bitno % BITS_PER_WORD))

def bitmapMark (index : ℕ) (b : Bitmap) : Except Stop Bitmap :=
  let (ix, m) := bitmapTranslate index
  if b.nbits ≤ index then .error .panic
  else
    match b.v[ix]? with
    | none => .error .outOfBounds
    | some w => if w &&& m ≠ 0 then .error .panic else .ok { b with v := b.v.set ix (w ||| m) }

def bitmapUnmark (index : ℕ) (b : Bitmap) : Except Stop Bitmap :=
  let (ix, m) := bitmapTranslate index
  if b.nbits ≤ index then .error .panic
  else
    match b.v[ix]? with
    | none => .error .outOfBounds
    | some w => if w &&& m = 0 then .error .panic else .ok { b with v := b.v.set ix (w &&& ~~~m) }

def bitmapIsset (b : Bitmap) (index : ℕ) : Except Stop Bool :=
  let (ix, m) := bitmapTranslate index
  match b.v[ix]? with
  | none => .error .outOfBounds
  | some w => .ok (w &&& m != 0)

inductive Action where
  | alloc
  | mark (index : ℕ)
  | unmark (index : ℕ)

def step : Action → Bitmap → Except Stop Bitmap
  | .alloc, b => match bitmapAlloc b with
    | .error stop => .error stop
    | .ok (_, b') => .ok b'
  | .mark index, b => bitmapMark index b
  | .unmark index, b => bitmapUnmark index b

/-- The bits of the words one after the other. -/
def bit (v : List Word) (i : ℕ) : Bool := (v.getD (i / BITS_PER_WORD) 0).getLsbD (i % BITS_PER_WORD)

/-- A bit of the bitmap that is clear. -/
def Clear (b : Bitmap) (i : ℕ) : Prop := i < b.nbits ∧ bit b.v i = false

/-- A bit of the bitmap that is set. -/
def Marked (b : Bitmap) (i : ℕ) : Prop := i < b.nbits ∧ bit b.v i = true

instance (b : Bitmap) : DecidablePred (Clear b) := fun _ => inferInstanceAs (Decidable (_ ∧ _))

instance (b : Bitmap) : DecidablePred (Marked b) := fun _ => inferInstanceAs (Decidable (_ ∧ _))

/-- Bits are marked when they are clear and unmarked when they are set. -/
def Proper : Action → Bitmap → Prop
  | .alloc, _ => True
  | .mark index, b => Clear b index
  | .unmark index, b => Marked b index

/-- The only bit that differs is bit `i`, which has the value `x`. -/
structure Sets (b : Bitmap) (i : ℕ) (x : Bool) (b' : Bitmap) : Prop where
  nbits : b'.nbits = b.nbits
  length : b'.v.length = b.v.length
  bits : ∀ j, bit b'.v j = if j = i then x else bit b.v j

/-- There is a word for every bit, and the bits left over are set. -/
structure WellFormed (b : Bitmap) : Prop where
  small : b.nbits + BITS_PER_WORD - 1 < 2^32
  length : b.v.length = words b.nbits
  tail : ∀ i, b.nbits ≤ i → i < b.v.length * BITS_PER_WORD → bit b.v i = true

/-- What each function does. -/
structure Right (b : Bitmap) : Prop where
  full : bitmapAlloc b = .ok (.error .enospc, b) ↔ ∀ i < b.nbits, Marked b i
  alloc : (∃ i, Clear b i) → ∃ i b', bitmapAlloc b = .ok (.ok i, b') ∧ Least (Clear b) i ∧ Sets b i true b'
  mark : ∀ i, Clear b i → ∃ b', bitmapMark i b = .ok b' ∧ Sets b i true b'
  unmark : ∀ i, Marked b i → ∃ b', bitmapUnmark i b = .ok b' ∧ Sets b i false b'
  isset : ∀ i < b.nbits, bitmapIsset b i = .ok (bit b.v i)

variable {b b' : Bitmap} {v : List Word} {w : Word} {i ix j k left offset nbits : ℕ}

theorem mask_bit (hk : k < BITS_PER_WORD) (j : ℕ) : (mask k).getLsbD j = decide (j = k) := by
  unfold BITS_PER_WORD at hk
  unfold mask
  rw [BitVec.getLsbD_shiftLeft, show (1 : Word) = 1#8 from rfl, BitVec.getLsbD_one]
  by_cases hj : j = k
  · subst hj
    simp [hk]
  · by_cases hlt : j < k
    · simp [hlt, hj]
    · simp only [hlt, hj, decide_false, Bool.not_false, Bool.and_true]
      simp
      omega

theorem and_mask (hk : k < BITS_PER_WORD) : w &&& mask k = 0 ↔ w.getLsbD k = false := by
  constructor
  · intro h
    have hbit := congrArg (fun x : Word => x.getLsbD k) h
    simpa [BitVec.getLsbD_and, mask_bit hk] using hbit
  · intro h
    apply BitVec.eq_of_getLsbD_eq
    intro j _
    rw [BitVec.getLsbD_and, mask_bit hk]
    by_cases hj : j = k
    · subst hj
      simp [h]
    · simp [hj]

theorem words_eq (h : nbits + BITS_PER_WORD - 1 < 2^32) :
    words nbits = (nbits + BITS_PER_WORD - 1) / BITS_PER_WORD := by
  rw [words, Nat.mod_eq_of_lt h]

theorem bit_of_get (hw : v[ix]? = some w) (hk : k < BITS_PER_WORD) : bit v (ix * BITS_PER_WORD + k) = w.getLsbD k := by
  unfold BITS_PER_WORD at *
  unfold bit BITS_PER_WORD
  rw [List.getD_eq_getElem?_getD, show (ix*8+k) / 8 = ix by omega, show (ix*8+k) % 8 = k by omega, hw,
    Option.getD_some]

theorem get_of_bit (v : List Word) (i : ℕ) (hi : i / BITS_PER_WORD < v.length) :
    ∃ w, v[i / BITS_PER_WORD]? = some w ∧ bit v i = w.getLsbD (i % BITS_PER_WORD) := by
  refine ⟨v[i / BITS_PER_WORD], List.getElem?_eq_getElem hi, ?_⟩
  unfold bit
  rw [List.getD_eq_getElem?_getD, List.getElem?_eq_getElem hi, Option.getD_some]

/-- A word in which one bit is different. -/
theorem bit_set {w' : Word} {x : Bool} (hw : v[ix]? = some w) (hk : k < BITS_PER_WORD)
    (hw' : ∀ j, w'.getLsbD j = if j = k then x else w.getLsbD j) (j : ℕ) :
    bit (v.set ix w') j = if j = ix * BITS_PER_WORD + k then x else bit v j := by
  have hix : ix < v.length := (List.getElem?_eq_some_iff.mp hw).1
  unfold bit
  rw [List.getD_eq_getElem?_getD, List.getD_eq_getElem?_getD, List.getElem?_set]
  unfold BITS_PER_WORD at *
  by_cases hword : ix = j / 8
  · rw [if_pos hword, if_pos (hword ▸ hix), Option.getD_some, hw', ← hword, hw, Option.getD_some]
    by_cases hj : j % 8 = k
    · rw [if_pos hj, if_pos (by omega)]
    · rw [if_neg hj, if_neg (by omega)]
  · rw [if_neg hword, if_neg (by omega)]

theorem or_mask (hk : k < BITS_PER_WORD) (j : ℕ) :
    (w ||| mask k).getLsbD j = if j = k then true else w.getLsbD j := by
  rw [BitVec.getLsbD_or, mask_bit hk]
  by_cases hj : j = k
  · simp [hj]
  · simp [hj]

theorem clear_mask (hk : k < BITS_PER_WORD) (j : ℕ) :
    (w &&& ~~~mask k).getLsbD j = if j = k then false else w.getLsbD j := by
  rw [BitVec.getLsbD_and, BitVec.getLsbD_not, mask_bit hk]
  by_cases hj : j = k
  · simp [hj]
  · by_cases hlt : j < 8
    · simp [hj, hlt]
    · rw [if_neg hj, BitVec.getLsbD_of_ge w j (by omega)]
      rfl

/-- The least bit of a word that is clear. -/
theorem offsetLoop_spec (left offset : ℕ) (h : offset + left ≤ BITS_PER_WORD) :
    match offsetLoop w left offset with
    | none => ∀ j, offset ≤ j → j < offset + left → w.getLsbD j = true
    | some k => offset ≤ k ∧ k < offset + left ∧ w.getLsbD k = false ∧ ∀ j, offset ≤ j → j < k → w.getLsbD j = true := by
  induction left generalizing offset with
  | zero =>
    intro j hle hlt
    omega
  | succ left ih =>
    unfold offsetLoop
    by_cases hclear : w &&& mask offset = 0
    · rw [if_pos hclear]
      refine ⟨Nat.le_refl _, by omega, (and_mask (by omega)).mp hclear, ?_⟩
      intro j hle hlt
      omega
    · rw [if_neg hclear]
      have hset : w.getLsbD offset = true := by
        rw [and_mask (by omega)] at hclear
        simpa using hclear
      have hrest := ih (offset+1) (by omega)
      cases hloop : offsetLoop w left (offset+1) with
      | none =>
        rw [hloop] at hrest
        intro j hle hlt
        by_cases hj : j = offset
        · rwa [hj]
        · exact hrest j (by omega) (by omega)
      | some k =>
        rw [hloop] at hrest
        obtain ⟨hle, hlt, hk, hbelow⟩ := hrest
        refine ⟨by omega, by omega, hk, ?_⟩
        intro j hj hjk
        by_cases heq : j = offset
        · rwa [heq]
        · exact hbelow j (by omega) hjk

theorem allbits_iff : w = WORD_ALLBITS ↔ ∀ j < BITS_PER_WORD, w.getLsbD j = true := by
  have hones : ∀ j < BITS_PER_WORD, WORD_ALLBITS.getLsbD j = true := by decide
  constructor
  · rintro rfl
    exact hones
  · intro h
    apply BitVec.eq_of_getLsbD_eq
    intro j hj
    rw [h j hj, hones j hj]

theorem word_lt (h : WellFormed b) (hi : i < b.nbits) : i / BITS_PER_WORD < b.v.length := by
  have hsmall := h.small
  rw [h.length, words_eq hsmall]
  unfold BITS_PER_WORD at *
  omega

/-- The words from `ix` on, when every bit before them is set. -/
theorem wordLoop_spec (h : WellFormed b) (hleft : ix + left = words b.nbits)
    (hbelow : ∀ i < ix * BITS_PER_WORD, bit b.v i = true) :
    (∃ i b', wordLoop b left ix = .ok (.ok i, b') ∧ Least (Clear b) i ∧ Sets b i true b') ∨
    (wordLoop b left ix = .ok (.error .enospc, b) ∧ ∀ i < b.nbits, bit b.v i = true) := by
  have hwords := words_eq h.small
  have hsmall := h.small
  induction left generalizing ix with
  | zero =>
    refine .inr ⟨rfl, fun i hi => hbelow i ?_⟩
    unfold BITS_PER_WORD at *
    omega
  | succ left ih =>
    have hix : ix < b.v.length := by
      rw [h.length]
      omega
    have hget : b.v[ix]? = some b.v[ix] := List.getElem?_eq_getElem hix
    simp only [wordLoop, hget]
    by_cases hall : b.v[ix] = WORD_ALLBITS
    · rw [if_neg (by simpa using hall)]
      refine ih (by omega) ?_
      intro i hi
      by_cases hlt : i < ix * BITS_PER_WORD
      · exact hbelow i hlt
      · obtain ⟨k, rfl⟩ : ∃ k, i = ix * BITS_PER_WORD + k := ⟨i - ix * BITS_PER_WORD, by omega⟩
        have hk : k < BITS_PER_WORD := by
          unfold BITS_PER_WORD at *
          omega
        rw [bit_of_get hget hk]
        exact allbits_iff.mp hall k hk
    · rw [if_pos hall]
      have hspec := offsetLoop_spec (w := b.v[ix]) BITS_PER_WORD 0 (by omega)
      cases hloop : offsetLoop b.v[ix] BITS_PER_WORD 0 with
      | none =>
        rw [hloop] at hspec
        exact absurd (allbits_iff.mpr fun j hj => hspec j (Nat.zero_le j) (by omega)) hall
      | some k =>
        rw [hloop] at hspec
        obtain ⟨-, hk, hclear, hfirst⟩ := hspec
        rw [Nat.zero_add] at hk
        have hbit : bit b.v (ix * BITS_PER_WORD + k) = false := by rw [bit_of_get hget hk, hclear]
        have hlt : ix * BITS_PER_WORD + k < b.nbits := by
          by_contra hge
          have hset := h.tail (ix * BITS_PER_WORD + k) (by omega) (by unfold BITS_PER_WORD at *; omega)
          rw [hbit] at hset
          cases hset
        have hindex : (ix * BITS_PER_WORD + k) % 2^32 = ix * BITS_PER_WORD + k :=
          Nat.mod_eq_of_lt (by unfold BITS_PER_WORD at *; omega)
        simp only [hindex, if_neg (Nat.not_le.mpr hlt)]
        refine .inl ⟨_, _, rfl, ⟨⟨hlt, hbit⟩, ?_⟩, rfl, List.length_set, bit_set hget hk (or_mask hk)⟩
        rintro i hi ⟨-, hno⟩
        have hyes : bit b.v i = true := by
          by_cases hbefore : i < ix * BITS_PER_WORD
          · exact hbelow i hbefore
          · obtain ⟨j, rfl⟩ : ∃ j, i = ix * BITS_PER_WORD + j := ⟨i - ix * BITS_PER_WORD, by omega⟩
            rw [bit_of_get hget (by omega)]
            exact hfirst j (Nat.zero_le j) (by omega)
        rw [hno] at hyes
        cases hyes

theorem bitmapMark_spec (h : WellFormed b) (hi : Clear b i) : ∃ b', bitmapMark i b = .ok b' ∧ Sets b i true b' := by
  obtain ⟨hlt, hclear⟩ := hi
  obtain ⟨w, hw, hbit⟩ := get_of_bit b.v i (word_lt h hlt)
  have hk : i % BITS_PER_WORD < BITS_PER_WORD := Nat.mod_lt _ (by decide)
  have hzero : w &&& mask (i % BITS_PER_WORD) = 0 := (and_mask hk).mpr (hbit ▸ hclear)
  simp only [bitmapMark, bitmapTranslate, if_neg (Nat.not_le.mpr hlt), hw, hzero, ne_eq, not_true_eq_false, if_false]
  refine ⟨_, rfl, rfl, List.length_set, ?_⟩
  intro j
  rw [bit_set hw hk (or_mask hk) j, Nat.div_add_mod']

theorem bitmapUnmark_spec (h : WellFormed b) (hi : Marked b i) :
    ∃ b', bitmapUnmark i b = .ok b' ∧ Sets b i false b' := by
  obtain ⟨hlt, hset⟩ := hi
  obtain ⟨w, hw, hbit⟩ := get_of_bit b.v i (word_lt h hlt)
  have hk : i % BITS_PER_WORD < BITS_PER_WORD := Nat.mod_lt _ (by decide)
  have hzero : ¬w &&& mask (i % BITS_PER_WORD) = 0 := by
    rw [and_mask hk, ← hbit, hset]
    decide
  simp only [bitmapUnmark, bitmapTranslate, if_neg (Nat.not_le.mpr hlt), hw]
  refine ⟨_, if_neg hzero, rfl, List.length_set, ?_⟩
  intro j
  rw [bit_set hw hk (clear_mask hk) j, Nat.div_add_mod']

theorem bitmapIsset_spec (h : WellFormed b) (hi : i < b.nbits) : bitmapIsset b i = .ok (bit b.v i) := by
  obtain ⟨w, hw, hbit⟩ := get_of_bit b.v i (word_lt h hi)
  have hk : i % BITS_PER_WORD < BITS_PER_WORD := Nat.mod_lt _ (by decide)
  simp only [bitmapIsset, bitmapTranslate, hw, hbit, Except.ok.injEq]
  cases hset : w.getLsbD (i % BITS_PER_WORD) with
  | false => simp [(and_mask hk).mpr hset]
  | true =>
    have hne : ¬w &&& mask (i % BITS_PER_WORD) = 0 := by
      rw [and_mask hk, hset]
      decide
    simpa using hne

theorem WellFormed.right (h : WellFormed b) : Right b := by
  have hloop := wordLoop_spec h (Nat.zero_add _) (fun i hi => by omega)
  refine ⟨?_, ?_, fun i hi => bitmapMark_spec h hi, fun i hi => bitmapUnmark_spec h hi, fun i hi => bitmapIsset_spec h hi⟩
  · constructor
    · intro hfull
      obtain ⟨i, b', hrun, -⟩ | ⟨-, hall⟩ := hloop
      · rw [bitmapAlloc, hrun] at hfull
        cases hfull
      · exact fun i hi => ⟨hi, hall i hi⟩
    · intro hall
      obtain ⟨i, b', -, ⟨⟨hi, hclear⟩, -⟩, -⟩ | ⟨hrun, -⟩ := hloop
      · rw [(hall i hi).2] at hclear
        cases hclear
      · exact hrun
  · rintro ⟨i, hi, hclear⟩
    obtain hfound | ⟨-, hall⟩ := hloop
    · exact hfound
    · rw [hall i hi] at hclear
      cases hclear

/-- A bit of the bitmap changes and the bits left over do not. -/
theorem WellFormed.set {x : Bool} (h : WellFormed b) (hi : i < b.nbits) (hs : Sets b i x b') : WellFormed b' := by
  refine ⟨?_, ?_, ?_⟩
  · rw [hs.nbits]
    exact h.small
  · rw [hs.length, hs.nbits]
    exact h.length
  · intro j hj hlt
    rw [hs.nbits] at hj
    rw [hs.length] at hlt
    rw [hs.bits, if_neg (by omega)]
    exact h.tail j hj hlt

theorem step_wellFormed (h : WellFormed b) (a : Action) (ha : Proper a b) :
    ∃ b', step a b = .ok b' ∧ WellFormed b' ∧ b'.nbits = b.nbits := by
  cases a with
  | alloc =>
    obtain ⟨i, b', hrun, hleast, hs⟩ | ⟨hrun, -⟩ := wordLoop_spec h (Nat.zero_add _) (fun i hi => by omega)
    · refine ⟨b', ?_, h.set hleast.1.1 hs, hs.nbits⟩
      simp only [step, bitmapAlloc, hrun]
    · refine ⟨b, ?_, h, rfl⟩
      simp only [step, bitmapAlloc, hrun]
  | mark i =>
    obtain ⟨b', hrun, hs⟩ := bitmapMark_spec h ha
    exact ⟨b', hrun, h.set ha.1 hs, hs.nbits⟩
  | unmark i =>
    obtain ⟨b', hrun, hs⟩ := bitmapUnmark_spec h ha
    exact ⟨b', hrun, h.set ha.1 hs, hs.nbits⟩

/-- The bits from `j` on of word `ix` are set and the others stay. -/
theorem tailLoop_spec (hix : ix < v.length) (left j : ℕ) (hj : j + left = BITS_PER_WORD) :
    ∃ v', tailLoop ix left j v = .ok v' ∧ v'.length = v.length ∧
      ∀ i, bit v' i = if ix * BITS_PER_WORD + j ≤ i ∧ i < (ix+1) * BITS_PER_WORD then true else bit v i := by
  induction left generalizing j v with
  | zero =>
    refine ⟨v, rfl, rfl, fun i => (if_neg ?_).symm⟩
    unfold BITS_PER_WORD at *
    omega
  | succ left ih =>
    have hget : v[ix]? = some v[ix] := List.getElem?_eq_getElem hix
    have hk : j < BITS_PER_WORD := by omega
    obtain ⟨v', hrun, hlength, hbits⟩ := ih (v := v.set ix (v[ix] ||| mask j)) (by rwa [List.length_set]) (j+1) (by omega)
    refine ⟨v', ?_, hlength.trans List.length_set, ?_⟩
    · simp only [tailLoop, hget]
      exact hrun
    · intro i
      rw [hbits i, bit_set hget hk (or_mask hk) i]
      unfold BITS_PER_WORD at *
      by_cases hlater : ix*8 + (j+1) ≤ i ∧ i < (ix+1)*8
      · rw [if_pos hlater, if_pos (by omega)]
      · rw [if_neg hlater]
        by_cases hhere : i = ix*8 + j
        · rw [if_pos hhere, if_pos (by omega)]
        · rw [if_neg hhere, if_neg (by omega)]

theorem bit_zeros (n i : ℕ) : bit (List.replicate n 0) i = false := by
  unfold bit
  rw [List.getD_eq_getElem?_getD, List.getElem?_replicate]
  by_cases hi : i / BITS_PER_WORD < n
  · rw [if_pos hi]
    exact BitVec.getLsbD_zero
  · rw [if_neg hi]
    exact BitVec.getLsbD_zero

/-- A new bitmap, for which there has been memory, has no bit set. -/
theorem bitmapCreate_spec (h : nbits + BITS_PER_WORD - 1 < 2^32) (gotBitmap gotWords : Bool) :
    ∃ o, bitmapCreate nbits gotBitmap gotWords = .ok o ∧
      ∀ b, o = some b → WellFormed b ∧ b.nbits = nbits ∧ ∀ i < nbits, Clear b i := by
  have hwords := words_eq h
  unfold bitmapCreate
  by_cases hgot : (!gotBitmap || !gotWords) = true
  · rw [if_pos hgot]
    exact ⟨none, rfl, fun b hb => nomatch hb⟩
  · rw [if_neg hgot]
    by_cases htail : nbits / BITS_PER_WORD < words nbits
    · have hlast : nbits / BITS_PER_WORD = words nbits - 1 := by
        unfold BITS_PER_WORD at *
        omega
      have hover : 0 < nbits - (words nbits - 1) * BITS_PER_WORD ∧
          nbits - (words nbits - 1) * BITS_PER_WORD < BITS_PER_WORD := by
        unfold BITS_PER_WORD at *
        omega
      have hix : words nbits - 1 < (List.replicate (words nbits) (0 : Word)).length := by
        rw [List.length_replicate]
        omega
      obtain ⟨v', hrun, hlength, hbits⟩ := tailLoop_spec hix
        (BITS_PER_WORD - (nbits - (words nbits - 1) * BITS_PER_WORD)) (nbits - (words nbits - 1) * BITS_PER_WORD) (by omega)
      simp only [ne_eq, hlast, not_true_eq_false, if_false, hover, and_self, hrun]
      rw [if_pos (by omega)]
      refine ⟨_, rfl, ?_⟩
      intro b hb
      obtain rfl := Option.some.inj hb
      rw [List.length_replicate] at hlength
      refine ⟨⟨h, hlength, ?_⟩, rfl, ?_⟩
      · intro i hi hlt
        rw [hlength] at hlt
        rw [hbits, if_pos ?_]
        unfold BITS_PER_WORD at *
        dsimp only at *
        omega
      · intro i hi
        refine ⟨hi, ?_⟩
        rw [hbits, if_neg ?_, bit_zeros]
        unfold BITS_PER_WORD at *
        omega
    · simp only [if_neg htail]
      refine ⟨_, rfl, ?_⟩
      intro b hb
      obtain rfl := Option.some.inj hb
      refine ⟨⟨h, List.length_replicate, ?_⟩, rfl, fun i hi => ⟨hi, bit_zeros _ i⟩⟩
      intro i hi hlt
      rw [List.length_replicate] at hlt
      unfold BITS_PER_WORD at *
      dsimp only at *
      omega

/-- However a bitmap is used after it has been made. -/
theorem run_right (nbits : ℕ) (h : nbits + BITS_PER_WORD - 1 < 2^32) (gotBitmap gotWords : Bool) :
    ∃ o, bitmapCreate nbits gotBitmap gotWords = .ok o ∧
      ∀ b, o = some b → b.nbits = nbits ∧ (∀ i < nbits, Clear b i) ∧
        ∀ as, Guarded step Proper as b → ∃ b', run step as b = .ok b' ∧ b'.nbits = nbits ∧ Right b' := by
  obtain ⟨o, hcreate, hspec⟩ := bitmapCreate_spec h gotBitmap gotWords
  refine ⟨o, hcreate, fun b hb => ?_⟩
  obtain ⟨hwell, hnbits, hclear⟩ := hspec b hb
  refine ⟨hnbits, hclear, fun as hg => ?_⟩
  have hstep : ∀ a b, (WellFormed b ∧ b.nbits = nbits) → Proper a b →
      Ensures (fun _ => False) (fun b' => WellFormed b' ∧ b'.nbits = nbits) (step a b) := by
    intro a b hi ha
    obtain ⟨b', hrun, hwell', hsame⟩ := step_wellFormed hi.1 a ha
    exact ensures_ok.mpr ⟨b', hrun, hwell', hsame.trans hi.2⟩
  obtain ⟨b', hrun, hwell', hsame⟩ := ensures_ok.mp (guarded_ensures hstep hg ⟨hwell, hnbits⟩)
  exact ⟨b', hrun, hsame, hwell'.right⟩

/-- For ten bits there are two words, the last with two bits. -/
theorem tenBits_right : ∃ o, bitmapCreate 10 true true = .ok o ∧
    ∀ b, o = some b → b.nbits = 10 ∧ (∀ i < 10, Clear b i) ∧
      ∀ as, Guarded step Proper as b → ∃ b', run step as b = .ok b' ∧ b'.nbits = 10 ∧ Right b' :=
  run_right 10 (by decide) true true

end OS161.Bitmaps
