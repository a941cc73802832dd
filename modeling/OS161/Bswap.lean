import Mathlib.Data.Nat.Notation

/-!
# Byte order

The bytes of a number are picked out by masks and moved by shifts. Whatever
number of bytes there is, a masked byte that is shifted is found in one place of
the result, and all else is zero; a number is known by its bytes.
-/

set_option autoImplicit false

namespace OS161.Bswap

section Bytes

variable {w : ℕ}

/-- Byte `i`, the least significant first. -/
def byte (v : BitVec w) (i : ℕ) : BitVec 8 := v.extractLsb' (8*i) 8

def bytes (v : BitVec w) : List (BitVec 8) := (List.range (w/8)).map (byte v)

/-- The bits of byte `j`. -/
def mask (w j : ℕ) : BitVec w := (255#8).setWidth w <<< (8*j)

theorem bit_255 {k : ℕ} : (255#8).getLsbD k = decide (k < 8) := by
  by_cases h : k < 8
  · have hall : ∀ k < 8, (255#8).getLsbD k = true := by decide
    rw [hall k h, decide_eq_true h]
  · rw [BitVec.getLsbD_of_ge _ _ (by omega), decide_eq_false h]

theorem bit_mask {j k : ℕ} : (mask w j).getLsbD k = decide (8*j ≤ k ∧ k < 8*j+8 ∧ k < w) := by
  simp only [mask, BitVec.getLsbD_shiftLeft, BitVec.getLsbD_setWidth, bit_255]
  grind

theorem bit_byte {v : BitVec w} {i k : ℕ} : (byte v i).getLsbD k = (decide (k < 8) && v.getLsbD (8*i+k)) :=
  BitVec.getLsbD_extractLsb' _ _ _ _

theorem byte_or (v v' : BitVec w) (i : ℕ) : byte (v ||| v') i = byte v i ||| byte v' i := by
  apply BitVec.eq_of_getLsbD_eq
  intro k hk
  simp only [BitVec.getLsbD_or, bit_byte]
  grind

/-- A masked byte that is shifted to the left. -/
theorem byte_left (v : BitVec w) {i s : ℕ} (j : ℕ) (h : 8*i+8 ≤ w) :
    byte ((v &&& mask w j) <<< (8*s)) i = if i = j+s then byte v j else 0#8 := by
  apply BitVec.eq_of_getLsbD_eq
  intro k hk
  simp only [bit_byte, BitVec.getLsbD_shiftLeft, BitVec.getLsbD_and, bit_mask]
  split
  · next hi =>
    subst hi
    rw [bit_byte, show 8*(j+s)+k - 8*s = 8*j+k by omega]
    grind
  · grind

/-- A masked byte that is shifted to the right. -/
theorem byte_right (v : BitVec w) {i s : ℕ} (j : ℕ) (h : 8*j+8 ≤ w) :
    byte ((v &&& mask w j) >>> (8*s)) i = if i+s = j then byte v j else 0#8 := by
  apply BitVec.eq_of_getLsbD_eq
  intro k hk
  simp only [bit_byte, BitVec.getLsbD_ushiftRight, BitVec.getLsbD_and, bit_mask]
  split
  · next hi =>
    subst hi
    rw [bit_byte, show 8*s + (8*i+k) = 8*(i+s)+k by omega]
    grind
  · grind

/-- A number is known by its bytes. -/
theorem eq_of_byte {v v' : BitVec w} (hw : w % 8 = 0) (h : ∀ i < w/8, byte v i = byte v' i) : v = v' := by
  apply BitVec.eq_of_getLsbD_eq
  intro k hk
  have hbit := congrArg (fun b => b.getLsbD (k%8)) (h (k/8) (by omega))
  simp only [bit_byte] at hbit
  rw [Nat.div_add_mod, decide_eq_true (Nat.mod_lt k (by decide)), Bool.true_and, Bool.true_and] at hbit
  exact hbit

theorem bytes_inj {v v' : BitVec w} (hw : w % 8 = 0) : bytes v = bytes v' ↔ v = v' := by
  refine ⟨fun h => eq_of_byte hw fun i hi => ?_, congrArg bytes⟩
  have hat : (bytes v)[i]? = (bytes v')[i]? := congrArg (fun l => l[i]?) h
  simpa [bytes, hi] using hat

theorem byte_reverse {v v' : BitVec w} (h : bytes v' = (bytes v).reverse) {i : ℕ} (hi : i < w/8) :
    byte v' i = byte v (w/8 - 1 - i) := by
  have hat : (bytes v')[i]? = (bytes v).reverse[i]? := congrArg (fun l => l[i]?) h
  rw [List.getElem?_reverse (by simpa [bytes] using hi)] at hat
  simpa [bytes, hi, show w/8 - 1 - i < w/8 by omega] using hat

/-- What reverses the bytes of every number is its own inverse. -/
theorem involutive_of_reverse {f : BitVec w → BitVec w} (hw : w % 8 = 0) (h : ∀ v, bytes (f v) = (bytes v).reverse)
    (v : BitVec w) : f (f v) = v := by
  apply eq_of_byte hw
  intro i hi
  rw [byte_reverse (h (f v)) hi, byte_reverse (h v) (by omega), show w/8 - 1 - (w/8 - 1 - i) = i by omega]

end Bytes

def bswap16 (val : BitVec 16) : BitVec 16 :=
  ((val &&& 0x00ff#16) <<< 8)
    ||| ((val &&& 0xff00#16) >>> 8)

def bswap32 (val : BitVec 32) : BitVec 32 :=
  ((val &&& 0x000000ff#32) <<< 24)
    ||| ((val &&& 0x0000ff00#32) <<< 8)
    ||| ((val &&& 0x00ff0000#32) >>> 8)
    ||| ((val &&& 0xff000000#32) >>> 24)

def bswap64 (val : BitVec 64) : BitVec 64 :=
  ((val &&& 0x00000000000000ff#64) <<< 56)
    ||| ((val &&& 0x000000000000ff00#64) <<< 40)
    ||| ((val &&& 0x0000000000ff0000#64) <<< 24)
    ||| ((val &&& 0x00000000ff000000#64) <<< 8)
    ||| ((val &&& 0x000000ff00000000#64) <<< 8)
    ||| ((val &&& 0x0000ff0000000000#64) <<< 24)
    ||| ((val &&& 0x00ff000000000000#64) >>> 40)
    ||| ((val &&& 0xff00000000000000#64) >>> 56)

theorem bytes_16 (v : BitVec 16) : bytes v = [byte v 0, byte v 1] := rfl

theorem bytes_32 (v : BitVec 32) : bytes v = [byte v 0, byte v 1, byte v 2, byte v 3] := rfl

theorem bytes_64 (v : BitVec 64) :
    bytes v = [byte v 0, byte v 1, byte v 2, byte v 3, byte v 4, byte v 5, byte v 6, byte v 7] := rfl

theorem bswap16_bytes (val : BitVec 16) : bytes (bswap16 val) = [byte val 1, byte val 0] := by
  have hfields : bswap16 val = ((val &&& mask 16 0) <<< (8*1)) ||| ((val &&& mask 16 1) >>> (8*1)) := rfl
  have hbyte : ∀ i < 2, byte (bswap16 val) i =
      (if i = 0+1 then byte val 0 else 0#8) ||| (if i+1 = 1 then byte val 1 else 0#8) := by
    intro i hi
    rw [hfields, byte_or, byte_left val 0 (by omega), byte_right val 1 (by omega)]
  simp [bytes_16, hbyte]

theorem bswap32_bytes (val : BitVec 32) :
    bytes (bswap32 val) = [byte val 3, byte val 2, byte val 1, byte val 0] := by
  have hfields : bswap32 val = ((val &&& mask 32 0) <<< (8*3)) ||| ((val &&& mask 32 1) <<< (8*1))
      ||| ((val &&& mask 32 2) >>> (8*1)) ||| ((val &&& mask 32 3) >>> (8*3)) := rfl
  have hbyte : ∀ i < 4, byte (bswap32 val) i =
      (if i = 0+3 then byte val 0 else 0#8) ||| (if i = 1+1 then byte val 1 else 0#8)
      ||| (if i+1 = 2 then byte val 2 else 0#8) ||| (if i+3 = 3 then byte val 3 else 0#8) := by
    intro i hi
    rw [hfields, byte_or, byte_or, byte_or, byte_left val 0 (by omega), byte_left val 1 (by omega),
      byte_right val 2 (by omega), byte_right val 3 (by omega)]
  simp [bytes_32, hbyte]

-- bytes 4 and 5 are shifted the wrong way: one joins byte 2, the other leaves the number
theorem bswap64_bytes (val : BitVec 64) : bytes (bswap64 val) =
    [byte val 7, byte val 6, 0#8, 0#8, byte val 3, byte val 2 ||| byte val 4, byte val 1, byte val 0] := by
  have hfields : bswap64 val = ((val &&& mask 64 0) <<< (8*7)) ||| ((val &&& mask 64 1) <<< (8*5))
      ||| ((val &&& mask 64 2) <<< (8*3)) ||| ((val &&& mask 64 3) <<< (8*1))
      ||| ((val &&& mask 64 4) <<< (8*1)) ||| ((val &&& mask 64 5) <<< (8*3))
      ||| ((val &&& mask 64 6) >>> (8*5)) ||| ((val &&& mask 64 7) >>> (8*7)) := rfl
  have hbyte : ∀ i < 8, byte (bswap64 val) i =
      (if i = 0+7 then byte val 0 else 0#8) ||| (if i = 1+5 then byte val 1 else 0#8)
      ||| (if i = 2+3 then byte val 2 else 0#8) ||| (if i = 3+1 then byte val 3 else 0#8)
      ||| (if i = 4+1 then byte val 4 else 0#8) ||| (if i = 5+3 then byte val 5 else 0#8)
      ||| (if i+5 = 6 then byte val 6 else 0#8) ||| (if i+7 = 7 then byte val 7 else 0#8) := by
    intro i hi
    rw [hfields, byte_or, byte_or, byte_or, byte_or, byte_or, byte_or, byte_or, byte_left val 0 (by omega),
      byte_left val 1 (by omega), byte_left val 2 (by omega), byte_left val 3 (by omega), byte_left val 4 (by omega),
      byte_left val 5 (by omega), byte_right val 6 (by omega), byte_right val 7 (by omega)]
  simp [bytes_64, hbyte]

/-- The bytes are in the reverse order, as they should be after a swap. -/
def Reversed {w : ℕ} (v v' : BitVec w) : Prop := bytes v' = (bytes v).reverse

theorem bswap16_reverses (val : BitVec 16) : Reversed val (bswap16 val) := bswap16_bytes val

theorem bswap32_reverses (val : BitVec 32) : Reversed val (bswap32 val) := bswap32_bytes val

theorem bswap64_reverses_iff (val : BitVec 64) :
    Reversed val (bswap64 val) ↔ byte val 4 = 0#8 ∧ byte val 5 = 0#8 := by
  rw [Reversed, bswap64_bytes, bytes_64]
  simp only [List.reverse_cons, List.reverse_nil, List.nil_append, List.cons_append, List.cons.injEq, true_and, and_true]
  constructor
  · rintro ⟨h5, h4, -⟩
    exact ⟨h4.symm, h5.symm⟩
  · rintro ⟨h4, h5⟩
    simp [h4, h5]

/-- What swapping twice makes of a number. -/
theorem bswap64_twice (val : BitVec 64) : bytes (bswap64 (bswap64 val)) =
    [byte val 0, byte val 1, 0#8, 0#8, 0#8, byte val 3, byte val 6, byte val 7] := by
  have hbytes := bswap64_bytes val
  rw [bytes_64] at hbytes
  simp only [List.cons.injEq, and_true] at hbytes
  obtain ⟨h0, h1, h2, h3, h4, h5, h6, h7⟩ := hbytes
  rw [bswap64_bytes]
  simp [h0, h1, h2, h3, h4, h6, h7]

theorem bswap64_involutive_iff (val : BitVec 64) : bswap64 (bswap64 val) = val ↔
    byte val 2 = 0#8 ∧ byte val 3 = 0#8 ∧ byte val 4 = 0#8 ∧ byte val 5 = 0#8 := by
  rw [← bytes_inj (by decide), bswap64_twice, bytes_64]
  simp only [List.cons.injEq, true_and, and_true]
  constructor
  · rintro ⟨h2, h3, h4, h5⟩
    exact ⟨h2.symm, h3.symm, h4.symm, h5.symm.trans h3.symm⟩
  · rintro ⟨h2, h3, h4, h5⟩
    exact ⟨h2.symm, h3.symm, h4.symm, h3.trans h5.symm⟩

/-- The halves of a number of 64 bits. -/
def low (val : BitVec 64) : BitVec 32 := val.extractLsb' 0 32
def high (val : BitVec 64) : BitVec 32 := val.extractLsb' 32 32

theorem byte_low (val : BitVec 64) {i : ℕ} (hi : i < 4) : byte (low val) i = byte val i := by
  apply BitVec.eq_of_getLsbD_eq
  intro k hk
  simp only [bit_byte, low, BitVec.getLsbD_extractLsb']
  grind

theorem byte_high (val : BitVec 64) (i : ℕ) : byte (high val) i = byte val (i+4) := by
  apply BitVec.eq_of_getLsbD_eq
  intro k hk
  simp only [bit_byte, high, BitVec.getLsbD_extractLsb']
  grind

theorem bytes_low (val : BitVec 64) : bytes (low val) = (bytes val).take 4 := by
  simp [bytes_32, bytes_64, byte_low]

theorem bytes_high (val : BitVec 64) : bytes (high val) = (bytes val).drop 4 := by
  simp [bytes_32, bytes_64, byte_high]

/-- The halves are swapped and change places. -/
def Exchanged (val val' : BitVec 64) : Prop :=
  low val' = bswap32 (high val) ∧ high val' = bswap32 (low val)

/-- Changing the places of the swapped halves is reversing the bytes. -/
theorem exchanged_iff (val val' : BitVec 64) : Exchanged val val' ↔ Reversed val val' := by
  have hlow : low val' = bswap32 (high val) ↔ (bytes val').take 4 = ((bytes val).drop 4).reverse := by
    rw [← bytes_inj (by decide), bswap32_reverses, bytes_low, bytes_high]
  have hhigh : high val' = bswap32 (low val) ↔ (bytes val').drop 4 = ((bytes val).take 4).reverse := by
    rw [← bytes_inj (by decide), bswap32_reverses, bytes_low, bytes_high]
  have hval : (bytes val).reverse = ((bytes val).drop 4).reverse ++ ((bytes val).take 4).reverse := by
    rw [← List.reverse_append, List.take_append_drop]
  have hlength : ((bytes val').take 4).length = ((bytes val).drop 4).reverse.length := rfl
  rw [Exchanged, hlow, hhigh, Reversed, hval]
  constructor
  · rintro ⟨h₁, h₂⟩
    rw [← List.take_append_drop 4 (bytes val'), h₁, h₂]
  · intro h
    apply List.append_inj _ hlength
    rw [List.take_append_drop, h]

/-- The three functions reverse the bytes, are their own inverse, and the longest one exchanges the swapped halves,
just where the four bytes in the middle of the longest number are zero. -/
theorem bswap_right_iff (a : BitVec 16) (b : BitVec 32) (c : BitVec 64) :
    ((Reversed a (bswap16 a) ∧ bswap16 (bswap16 a) = a) ∧ (Reversed b (bswap32 b) ∧ bswap32 (bswap32 b) = b) ∧
      Reversed c (bswap64 c) ∧ bswap64 (bswap64 c) = c ∧ Exchanged c (bswap64 c)) ↔
    byte c 2 = 0#8 ∧ byte c 3 = 0#8 ∧ byte c 4 = 0#8 ∧ byte c 5 = 0#8 := by
  have h16 : Reversed a (bswap16 a) ∧ bswap16 (bswap16 a) = a :=
    ⟨bswap16_reverses a, involutive_of_reverse (by decide) bswap16_reverses a⟩
  have h32 : Reversed b (bswap32 b) ∧ bswap32 (bswap32 b) = b :=
    ⟨bswap32_reverses b, involutive_of_reverse (by decide) bswap32_reverses b⟩
  rw [exchanged_iff, bswap64_reverses_iff, bswap64_involutive_iff]
  constructor
  · rintro ⟨-, -, -, h, -⟩
    exact h
  · rintro ⟨h2, h3, h4, h5⟩
    exact ⟨h16, h32, ⟨h4, h5⟩, ⟨h2, h3, h4, h5⟩, h4, h5⟩

/-- The byte above the lower half is not found where it should be. -/
theorem bswap64_misplaced : ¬Reversed 0x0000000100000000#64 (bswap64 0x0000000100000000#64) := by
  rw [bswap64_reverses_iff]
  decide

/-- Byte order of a machine. -/
inductive ByteOrder where
  | bigEndian | littleEndian

/-- The function that `TO` makes of one that swaps, for both ways. -/
def TO {w : ℕ} (bswap : BitVec w → BitVec w) (order : ByteOrder) (val : BitVec w) : BitVec w :=
  match order with
  | .littleEndian => bswap val
  | .bigEndian => val

def ntohs := TO bswap16
def htons := TO bswap16
def ntohl := TO bswap32
def htonl := TO bswap32
def ntohll := TO bswap64
def htonll := TO bswap64

/-- The bytes of a number as they stand in memory. -/
def stored {w : ℕ} (order : ByteOrder) (val : BitVec w) : List (BitVec 8) :=
  match order with
  | .littleEndian => bytes val
  | .bigEndian => (bytes val).reverse

/-- A number for the network stands in memory with the most significant byte first, where the swap reverses the
bytes. -/
theorem stored_iff {w : ℕ} (bswap : BitVec w → BitVec w) (order : ByteOrder) (val : BitVec w) :
    stored order (TO bswap order val) = (bytes val).reverse ↔
      order = .bigEndian ∨ Reversed val (bswap val) := by
  cases order with
  | bigEndian => simp [stored, TO]
  | littleEndian => simp [stored, TO, Reversed]

theorem htons_stored (order : ByteOrder) (val : BitVec 16) : stored order (htons order val) = (bytes val).reverse :=
  (stored_iff bswap16 order val).mpr (.inr (bswap16_reverses val))

theorem htonl_stored (order : ByteOrder) (val : BitVec 32) : stored order (htonl order val) = (bytes val).reverse :=
  (stored_iff bswap32 order val).mpr (.inr (bswap32_reverses val))

theorem htonll_stored_iff (order : ByteOrder) (val : BitVec 64) :
    stored order (htonll order val) = (bytes val).reverse ↔
      order = .bigEndian ∨ byte val 4 = 0#8 ∧ byte val 5 = 0#8 := by
  rw [htonll, stored_iff, bswap64_reverses_iff]

end OS161.Bswap
