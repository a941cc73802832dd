import Mathlib.Data.Nat.Digits.Lemmas
import OS161.CopyInOut
import OS161.Runs

/-!
# Numbers in printf

A number is turned into text from right to left in a buffer for the longest
number there can be. The text goes out with a sign and a base prefix before it,
and with as many fill characters as the field is wider, on one side or the other.
-/

set_option autoImplicit false

namespace OS161.Printf

open Function OS161.CopyInOut OS161.Runs

/-- The code of a character. -/
def code (c : Char) : UInt8 := .ofNat c.toNat

/-- The bits of an `int`, a `long`, a `long long` and a pointer. -/
def intBits : ℕ := 32
def longBits : ℕ := 32
def longlongBits : ℕ := 64
def pointerBits : ℕ := 32

def NUMBER_BUF_SIZE : ℕ := longlongBits / 3 + 2

/-- Where the program would not go on as it should. -/
inductive Fault where
  | overrun | assertion | noArgument | unfinished
  deriving DecidableEq

inductive Size where
  | intsz | longsz | llongsz | sizetsz
  deriving DecidableEq

/-- An argument: the bits of a number or a pointer, or a string. -/
inductive Arg where
  | number (bits : ℕ)
  | string (str : Option (List UInt8))

-- `out` is what `sendfunc` has been sent
/-- The state. -/
structure PF where
  out : List UInt8
  ap : List Arg
  charcount : ℤ
  inPct : Bool
  size : Size
  num : ℕ
  sign : ℤ
  spacing : ℤ
  rightspc : Bool
  fillchar : UInt8
  base : ℕ
  baseprefix : Bool
  altformat : Bool

/-- A number as an `int`. -/
def toInt (n : ℤ) : ℤ := n.bmod (2^intBits)

def pfPrint (txt : List UInt8) (pf : PF) : PF :=
  { pf with out := pf.out ++ txt, charcount := toInt (pf.charcount + txt.length) }

def pfEndfield (pf : PF) : PF := { pf with
  inPct := false
  size := .intsz
  num := 0
  sign := 0
  spacing := 0
  rightspc := false
  fillchar := code ' '
  base := 0
  baseprefix := false
  altformat := false }

def pfModifier (ch : UInt8) (pf : PF) : Except Fault PF :=
  if ch = code '#' then .ok { pf with altformat := true }
  else if ch = code '-' then .ok { pf with rightspc := true }
  else if ch = code 'l' then .ok { pf with size := if pf.size = .longsz then .llongsz else .longsz }
  else if ch = code 'z' then .ok { pf with size := .sizetsz }
  else if ch = code '0' then
    if 0 < pf.spacing then .ok { pf with spacing := toInt (pf.spacing * 10) }
    else .ok { pf with fillchar := code '0' }
  else if code '0' < ch ∧ ch ≤ code '9' then
    .ok { pf with spacing := toInt (pf.spacing * 10 + (ch.toNat - (code '0').toNat)) }
  else .error .assertion

/-- The bits of the next argument, which must be a number. -/
def vaArg (pf : PF) : Except Fault (ℕ × PF) :=
  match pf.ap with
  | .number bits::ap => .ok (bits, { pf with ap := ap })
  | _ => .error .noArgument

/-- The bits of an argument that has a size. -/
def Size.bits : Size → ℕ
  | .intsz => intBits
  | .longsz => longBits
  | .llongsz => longlongBits
  | .sizetsz => pointerBits

/-- The number of 64 bits that is the same modulo 2^64. -/
def toUnsigned (n : ℤ) : ℕ := (n % 2^longlongBits).toNat

def pfGetnum (ch : UInt8) (pf : PF) : Except Fault PF := do
  let (bits, pf) ← vaArg pf
  if ch = code 'p' then pure { pf with num := bits % 2^pointerBits }
  else if ch = code 'd' then
    let signednum : ℤ := (bits : ℤ).bmod (2^pf.size.bits)
    if signednum < 0 then pure { pf with sign := -1, num := toUnsigned (-signednum) }
    else pure { pf with num := toUnsigned signednum }
  else pure { pf with num := bits % 2^pf.size.bits }

/-- The base for a type of number; nothing else changes it. -/
def baseFor (ch : UInt8) (base : ℕ) : ℕ :=
  if ch = code 'd' ∨ ch = code 'u' then 10
  else if ch = code 'x' ∨ ch = code 'p' then 16
  else if ch = code 'o' then 8
  else base

def pfSetbase (ch : UInt8) (pf : PF) : PF :=
  { pf with base := baseFor ch pf.base, baseprefix := pf.baseprefix || (pf.altformat || ch == code 'p') }

/-- The loop prints the fill character `spc` times. -/
def pfFill : (spc : ℕ) → PF → PF
  | 0, pf => pf
  | spc+1, pf => pfFill spc (pfPrint [pf.fillchar] pf)

/-- Padding, if it belongs where it is asked for. -/
def pad (p : Bool) (spc : ℤ) (pf : PF) : PF := if 0 < spc ∧ p = true then pfFill spc.toNat pf else pf

/-- The amount of padding for strings. -/
def padding (pre pre2 stuff : List UInt8) (pf : PF) : ℤ :=
  let len := toInt (pre.length + pre2.length + stuff.length : ℕ)
  if len < pf.spacing then pf.spacing - len else 0

def pfPrintstuff (pre pre2 stuff : List UInt8) (pf : PF) : PF :=
  let spc := padding pre pre2 stuff pf
  let left := pad (!pf.rightspc && pf.fillchar != code '0') spc pf
  let prefixed := pfPrint pre2 (pfPrint pre left)
  let zeros := pad (!pf.rightspc && pf.fillchar == code '0') spc prefixed
  pad pf.rightspc spc (pfPrint stuff zeros)

/-- The digits to print with. -/
def digits : List UInt8 :=
  [code '0', code '1', code '2', code '3', code '4', code '5', code '6', code '7',
    code '8', code '9', code 'a', code 'b', code 'c', code 'd', code 'e', code 'f']

/-- A store through a pointer into the buffer. -/
def store (x : ℤ) (c : UInt8) (buf : Buffer) : Except Fault Buffer :=
  if 0 ≤ x ∧ x < NUMBER_BUF_SIZE then .ok (update buf x.toNat c) else .error .overrun

/-- The loop, which is done at least once. -/
def convert (base : ℕ) : (fuel : ℕ) → (x : ℤ) → (xnum : ℕ) → Buffer → Except Fault (ℤ × Buffer)
  | 0, _, _, _ => .error .unfinished
  | fuel+1, x, xnum, buf => do
    let buf ← store x (digits.getD (xnum % base) 0) buf
    if 0 < xnum / base then convert base fuel (x-1) (xnum / base) buf
    else pure (x-1, buf)

def basePrefix (pf : PF) : List UInt8 :=
  if pf.baseprefix = true ∧ pf.base = 16 then [code '0', code 'x']
  else if pf.baseprefix = true ∧ pf.base = 8 then [code '0']
  else []

def signPrefix (pf : PF) : List UInt8 := if pf.sign ≠ 0 then [code '-'] else []

-- the buffer is not initialised
def pfPrintnum (pf : PF) : Except Fault PF := do
  let buf ← store (NUMBER_BUF_SIZE - 1) 0 fun _ => 255
  let (x, buf) ← convert pf.base (NUMBER_BUF_SIZE + 1) (NUMBER_BUF_SIZE - 2) pf.num buf
  let x := (x + 1).toNat
  let stuff := cstring (NUMBER_BUF_SIZE - x) fun i => buf (x + i)
  pure (pfPrintstuff (signPrefix pf) (basePrefix pf) stuff pf)

/-- What stands for a null pointer. -/
def null : List UInt8 := [code '(', code 'n', code 'u', code 'l', code 'l', code ')']

def modifiers : List UInt8 :=
  [code '#', code '-', code 'l', code 'z', code '0', code '1', code '2', code '3', code '4', code '5',
    code '6', code '7', code '8', code '9']

def conversions : List UInt8 := [code 'd', code 'o', code 'u', code 'p', code 'x']

/-- The string that is a single character, which may be the end of it. -/
def single (c : UInt8) : List UInt8 := if c = 0 then [] else [c]

def pfSend (ch : UInt8) (pf : PF) : Except Fault PF :=
  if ch = 0 then .error .assertion
  else if pf.inPct = false ∧ ch ≠ code '%' then .ok (pfPrint [ch] pf)
  else if pf.inPct = false then .ok { pf with inPct := true }
  else if ch ∈ modifiers then pfModifier ch pf
  else if ch ∈ conversions then do
    let pf ← pfGetnum ch pf
    let pf ← pfPrintnum (pfSetbase ch pf)
    pure (pfEndfield pf)
  else if ch = code 's' then
    match pf.ap with
    | .string str::ap => .ok (pfEndfield (pfPrintstuff [] [] (str.getD null) { pf with ap := ap }))
    | _ => .error .noArgument
  else if ch = code 'c' then do
    let (bits, pf) ← vaArg pf
    pure (pfEndfield (pfPrintstuff [] [] (single (.ofNat bits)) pf))
  else .ok (pfEndfield (pfPrintstuff [] [] (single ch) pf))

/-- The state that a session starts in. -/
def fresh (ap : List Arg) : PF :=
  pfEndfield ⟨[], ap, 0, false, .intsz, 0, 0, 0, false, 0, 0, false, false⟩

/-- A session: the characters of the format are sent one after the other. -/
def vprintf (format : List UInt8) (ap : List Arg) : Except Fault PF := run pfSend format (fresh ap)

/-- The digits of a number, the most significant first; zero has one too. -/
def digitsOf (base n : ℕ) : List ℕ := if n = 0 then [0] else (Nat.digits base n).reverse

/-- Digits as text. -/
def text (ds : List ℕ) : List UInt8 := ds.map fun d => digits.getD d 0

/-- What is to hold of a few characters is checked for one after the other. -/
theorem of_all {p : UInt8 → Prop} [DecidablePred p] {l : List UInt8} (h : l.all (fun c => decide (p c)) = true) :
    ∀ c ∈ l, p c := by
  simpa using h

variable {base n k : ℕ} {buf : Buffer} {pf pf' : PF}

/-- The last digit comes after those of the quotient. -/
theorem digitsOf_step (hbase : 1 < base) (n : ℕ) :
    digitsOf base n = (if 0 < n / base then digitsOf base (n / base) else []) ++ [n % base] := by
  by_cases hn : n = 0
  · simp [digitsOf, hn]
  · have hdigits := Nat.digits_def' hbase (Nat.pos_of_ne_zero hn)
    rw [digitsOf, if_neg hn, hdigits, List.reverse_cons]
    split
    · next hq => rw [digitsOf, if_neg (Nat.ne_of_gt hq)]
    · next hq =>
      rw [Nat.eq_zero_of_not_pos hq, Nat.digits_zero, List.reverse_nil]

theorem digitsOf_ne_nil (hbase : 1 < base) (n : ℕ) : digitsOf base n ≠ [] := by
  rw [digitsOf_step hbase]
  simp

theorem digitsOf_lt (hbase : 1 < base) (n : ℕ) : ∀ d ∈ digitsOf base n, d < base := by
  intro d hd
  unfold digitsOf at hd
  split at hd
  · rw [List.mem_singleton.mp hd]
    omega
  · exact Nat.digits_lt_base hbase (List.mem_reverse.mp hd)

theorem ofDigits_digitsOf (base n : ℕ) : Nat.ofDigits base (digitsOf base n).reverse = n := by
  unfold digitsOf
  split
  · next hn => simp [hn]
  · rw [List.reverse_reverse, Nat.ofDigits_digits]

/-- No number of 64 bits has more digits than the buffer has room for. -/
theorem digitsOf_length (hbase : 8 ≤ base) (hn : n < 2^longlongBits) :
    (digitsOf base n).length ≤ NUMBER_BUF_SIZE - 1 := by
  unfold digitsOf
  split
  · decide
  · rw [List.length_reverse, Nat.digits_length_le_iff (by omega)]
    calc n < 2^longlongBits := hn
      _ ≤ 8^(NUMBER_BUF_SIZE - 1) := by decide
      _ ≤ base^(NUMBER_BUF_SIZE - 1) := Nat.pow_le_pow_left hbase _

theorem digit_ne_zero : ∀ d < 16, digits.getD d 0 ≠ 0 := by decide

/-- The string that starts where a character has just been stored. -/
theorem cstring_store {c : UInt8} (hc : c ≠ 0) (hk : k < NUMBER_BUF_SIZE) :
    cstring (NUMBER_BUF_SIZE - k) (fun i => update buf k c (k+i)) =
      c :: cstring (NUMBER_BUF_SIZE - (k+1)) fun i => buf (k+1+i) := by
  rw [show NUMBER_BUF_SIZE - k = NUMBER_BUF_SIZE - (k+1) + 1 by omega, cstring]
  have hfirst : update buf k c (k+0) = c := update_self k c buf
  have hrest : (fun i => update buf k c (k+(i+1))) = fun i => buf (k+1+i) := by
    funext i
    rw [update_of_ne (by omega), Nat.add_right_comm, Nat.add_assoc]
  rw [hfirst, if_neg hc, hrest]

-- by induction on the fuel; `k` is the number of places that are left
/-- The loop puts the digits before the string that is there, if there is room for them. -/
theorem convert_writes (hbase : 1 < base) (hmax : base ≤ 16) (fuel n k : ℕ) (buf : Buffer)
    (hroom : (digitsOf base n).length ≤ k) (hk : k < NUMBER_BUF_SIZE) (hfuel : k < fuel) :
    ∃ buf', convert base fuel (k - 1) n buf = .ok ((k - (digitsOf base n).length : ℕ) - 1, buf') ∧
      cstring (NUMBER_BUF_SIZE - (k - (digitsOf base n).length))
          (fun i => buf' (k - (digitsOf base n).length + i)) =
        text (digitsOf base n) ++ cstring (NUMBER_BUF_SIZE - k) fun i => buf (k+i) := by
  induction fuel generalizing n k buf with
  | zero => exact absurd hfuel (Nat.not_lt_zero k)
  | succ fuel ih =>
    have hstep := digitsOf_step hbase n
    have hlength := congrArg List.length hstep
    rw [List.length_append, List.length_singleton] at hlength
    obtain ⟨j, rfl⟩ : ∃ j, k = j + 1 := ⟨k - 1, by omega⟩
    have hdigit : digits.getD (n % base) 0 ≠ 0 :=
      digit_ne_zero _ (Nat.lt_of_lt_of_le (Nat.mod_lt n (by omega)) hmax)
    have hstore : store ((j + 1 : ℕ) - 1) (digits.getD (n % base) 0) buf =
        .ok (update buf j (digits.getD (n % base) 0)) := by
      unfold store
      rw [if_pos (by omega)]
      congr 2
      omega
    have hstring := @cstring_store j buf _ hdigit (Nat.lt_of_succ_lt hk)
    rw [convert, hstore]
    by_cases hq : 0 < n / base
    · rw [if_pos hq] at hstep hlength
      obtain ⟨buf', hrun, hend⟩ := ih (n / base) j (update buf j (digits.getD (n % base) 0)) (by omega) (by omega)
        (by omega)
      refine ⟨buf', ?_, ?_⟩
      · simp only [bind, Except.bind, if_pos hq]
        rw [show ((j + 1 : ℕ) : ℤ) - 1 - 1 = (j : ℤ) - 1 by omega, hrun]
        congr 3
        omega
      · rw [show j + 1 - (digitsOf base n).length = j - (digitsOf base (n / base)).length by omega, hend, hstring, hstep]
        simp [text]
    · rw [if_neg hq] at hstep hlength
      rw [List.nil_append] at hstep
      refine ⟨update buf j (digits.getD (n % base) 0), ?_, ?_⟩
      · simp only [bind, Except.bind, if_neg hq, pure, Except.pure]
        rw [hstep, show ((j + 1 : ℕ) : ℤ) - 1 - 1 = (j + 1 - 1 : ℕ) - 1 by omega]
        rfl
      · rw [hstep]
        exact hstring

/-- The settings that a number can be printed with. -/
structure Valid (pf : PF) : Prop where
  base : pf.base = 8 ∨ pf.base = 10 ∨ pf.base = 16
  num : pf.num < 2^longlongBits
  fillchar : pf.fillchar = code ' ' ∨ pf.fillchar = code '0'

theorem Valid.base_bounds (h : Valid pf) : 8 ≤ pf.base ∧ pf.base ≤ 16 := by
  obtain hb | hb | hb := h.base <;> omega

/-- The number is turned into its digits within the buffer. -/
theorem pfPrintnum_prints (h : Valid pf) : pfPrintnum pf =
    .ok (pfPrintstuff (signPrefix pf) (basePrefix pf) (text (digitsOf pf.base pf.num)) pf) := by
  obtain ⟨hmin, hmax⟩ := h.base_bounds
  have hterminate : store (NUMBER_BUF_SIZE - 1) 0 (fun _ => 255) =
      .ok (update (fun _ => 255) (NUMBER_BUF_SIZE - 1) 0) := rfl
  obtain ⟨buf', hrun, hstring⟩ := convert_writes (by omega) hmax (NUMBER_BUF_SIZE + 1) pf.num (NUMBER_BUF_SIZE - 1)
    (update (fun _ => 255) (NUMBER_BUF_SIZE - 1) 0) (digitsOf_length hmin h.num) (by decide) (by decide)
  have hlength := digitsOf_length hmin h.num
  unfold pfPrintnum
  rw [hterminate]
  simp only [bind, Except.bind]
  rw [show (NUMBER_BUF_SIZE : ℤ) - 2 = (NUMBER_BUF_SIZE - 1 : ℕ) - 1 by decide, hrun]
  simp only [pure, Except.pure]
  rw [show (((NUMBER_BUF_SIZE - 1 - (digitsOf pf.base pf.num).length : ℕ) : ℤ) - 1 + 1).toNat =
    NUMBER_BUF_SIZE - 1 - (digitsOf pf.base pf.num).length by omega, hstring]
  have hempty : cstring (NUMBER_BUF_SIZE - (NUMBER_BUF_SIZE - 1))
      (fun i => update (fun _ => (255 : UInt8)) (NUMBER_BUF_SIZE - 1) 0 (NUMBER_BUF_SIZE - 1 + i)) = [] := by decide
  rw [hempty, List.append_nil]

section Fields

variable {pre pre2 stuff : List UInt8}

theorem pfFill_out (spc : ℕ) (pf : PF) :
    (pfFill spc pf).out = pf.out ++ List.replicate spc pf.fillchar ∧ (pfFill spc pf).fillchar = pf.fillchar := by
  induction spc generalizing pf with
  | zero => simp [pfFill]
  | succ spc ih =>
    rw [pfFill]
    obtain ⟨hout, hfill⟩ := ih (pfPrint [pf.fillchar] pf)
    refine ⟨?_, hfill⟩
    rw [hout]
    simp [pfPrint, List.replicate_succ]

theorem pad_out (p : Bool) (spc : ℤ) (pf : PF) :
    (pad p spc pf).out = pf.out ++ (if p = true then List.replicate spc.toNat pf.fillchar else []) ∧
      (pad p spc pf).fillchar = pf.fillchar := by
  unfold pad
  by_cases hspc : 0 < spc
  · cases p with
    | true => simpa [hspc] using pfFill_out spc.toNat pf
    | false => simp
  · have hzero : spc.toNat = 0 := by omega
    simp [hspc, hzero]

/-- How much wider the field is than what is printed in it. -/
def slack (pre pre2 stuff : List UInt8) (pf : PF) : ℕ :=
  (pf.spacing - (pre.length + pre2.length + stuff.length : ℕ)).toNat

/-- What is printed in a field. -/
def padded (pre pre2 stuff : List UInt8) (pf : PF) : List UInt8 :=
  let fill (p : Bool) := if p = true then List.replicate (slack pre pre2 stuff pf) pf.fillchar else []
  fill (!pf.rightspc && pf.fillchar != code '0') ++ pre ++ pre2 ++
    fill (!pf.rightspc && pf.fillchar == code '0') ++ stuff ++ fill pf.rightspc

theorem toInt_small {n : ℕ} (h : n < 2^31) : toInt n = n := by
  unfold toInt intBits
  apply Int.bmod_eq_of_le <;> omega

theorem padding_slack (hlen : pre.length + pre2.length + stuff.length < 2^31) :
    (padding pre pre2 stuff pf).toNat = slack pre pre2 stuff pf := by
  unfold padding slack
  rw [toInt_small hlen]
  dsimp only
  split <;> omega

theorem pfPrintstuff_out (hlen : pre.length + pre2.length + stuff.length < 2^31) :
    (pfPrintstuff pre pre2 stuff pf).out = pf.out ++ padded pre pre2 stuff pf := by
  simp only [pfPrintstuff, pad_out, pfPrint, padding_slack hlen, padded, List.append_assoc]

end Fields

/-- Text without the spaces around it. -/
def strip (txt : List UInt8) : List UInt8 :=
  (((txt.dropWhile (· == code ' ')).reverse).dropWhile (· == code ' ')).reverse

/-- The base prefix of a numeral in the alternate form. -/
def prefixOf (base : ℕ) (alt : Bool) : List UInt8 :=
  if alt = true ∧ base = 16 then [code '0', code 'x'] else if alt = true ∧ base = 8 then [code '0'] else []

/-- A numeral: a sign, a base prefix and digits. -/
structure Numeral where
  negative : Bool
  ds : List ℕ

def Numeral.text (base : ℕ) (alt : Bool) (m : Numeral) : List UInt8 :=
  (if m.negative = true then [code '-'] else []) ++ prefixOf base alt ++ Printf.text m.ds

def Numeral.number (base : ℕ) (m : Numeral) : ℕ := Nat.ofDigits base m.ds.reverse

def Numeral.value (base : ℕ) (m : Numeral) : ℤ :=
  if m.negative = true then -(m.number base : ℤ) else m.number base

/-- Text is a numeral for a value. -/
def Denotes (base : ℕ) (alt : Bool) (v : ℤ) (txt : List UInt8) : Prop :=
  ∃ m : Numeral, m.ds ≠ [] ∧ (∀ d ∈ m.ds, d < base) ∧ m.text base alt = txt ∧ m.value base = v

/-- The value that is to be printed. -/
def valueOf (pf : PF) : ℤ := if pf.sign ≠ 0 then -(pf.num : ℤ) else pf.num

/-- What is sent out for a number. -/
def emitted (pf : PF) : Except Fault (List UInt8) := (pfPrintnum { pf with out := [] }).map (·.out)

/-- The number is printed within the buffer, as a numeral for its value, in a field that is as wide as it is set to be
or as what is in it. -/
def Formats (pf : PF) : Prop :=
  ∃ txt unpadded, emitted pf = .ok txt ∧ emitted { pf with spacing := 0 } = .ok unpadded ∧
    Denotes pf.base pf.baseprefix (valueOf pf) (strip txt) ∧ (txt.length : ℤ) = max pf.spacing unpadded.length

/-- The numeral with no more digits than it takes. -/
def shortest (pf : PF) : Numeral := ⟨decide (pf.sign ≠ 0), digitsOf pf.base pf.num⟩

theorem shortest_text (pf : PF) : (shortest pf).text pf.base pf.baseprefix =
    signPrefix pf ++ basePrefix pf ++ text (digitsOf pf.base pf.num) := by
  simp [shortest, Numeral.text, signPrefix, basePrefix, prefixOf]

theorem prefixes_length (pf : PF) : (signPrefix pf).length + (basePrefix pf).length ≤ 3 := by
  unfold signPrefix basePrefix
  split_ifs <;> decide

theorem text_length (ds : List ℕ) : (text ds).length = ds.length := List.length_map _

theorem field_length (h : Valid pf) :
    (signPrefix pf).length + (basePrefix pf).length + (text (digitsOf pf.base pf.num)).length < 2^31 := by
  have hlength := digitsOf_length h.base_bounds.1 h.num
  have hprefix := prefixes_length pf
  rw [text_length]
  unfold NUMBER_BUF_SIZE longlongBits at hlength
  omega

theorem emitted_padded (h : Valid pf) : emitted pf =
    .ok (padded (signPrefix pf) (basePrefix pf) (text (digitsOf pf.base pf.num)) pf) := by
  have hvalid : Valid { pf with out := [] } := ⟨h.base, h.num, h.fillchar⟩
  unfold emitted
  rw [pfPrintnum_prints hvalid, Except.map, pfPrintstuff_out]
  · rfl
  · exact field_length hvalid

/-- A field that is not wider than what is in it has no padding. -/
theorem padded_narrow {pre pre2 stuff : List UInt8} (h : slack pre pre2 stuff pf = 0) :
    padded pre pre2 stuff pf = pre ++ pre2 ++ stuff := by
  simp [padded, h]

theorem emitted_unpadded (h : Valid pf) : emitted { pf with spacing := 0 } =
    .ok ((shortest pf).text pf.base pf.baseprefix) := by
  have hvalid : Valid { pf with spacing := 0 } := ⟨h.base, h.num, h.fillchar⟩
  rw [emitted_padded hvalid, shortest_text]
  congr 1
  apply padded_narrow
  unfold slack
  dsimp only
  omega

theorem padded_length (pre pre2 stuff : List UInt8) (pf : PF) :
    (padded pre pre2 stuff pf).length = (pre ++ pre2 ++ stuff).length + slack pre pre2 stuff pf := by
  unfold padded
  by_cases hright : pf.rightspc = true
  · simp [hright]
    omega
  · by_cases hfill : pf.fillchar = code '0'
    · simp [hright, hfill]
      omega
    · simp [hright, hfill]
      omega

/-- The field is as wide as it is set to be, or as what is in it. -/
theorem emitted_length (pf : PF) :
    ((padded (signPrefix pf) (basePrefix pf) (text (digitsOf pf.base pf.num)) pf).length : ℤ) =
      max pf.spacing ((shortest pf).text pf.base pf.baseprefix).length := by
  rw [padded_length, shortest_text]
  simp only [slack, List.length_append]
  omega

theorem space_not_digit : ∀ d < 16, digits.getD d 0 ≠ code ' ' := by decide

theorem text_no_space {base : ℕ} {alt : Bool} {m : Numeral} (hmax : base ≤ 16) (hds : ∀ d ∈ m.ds, d < base) :
    ∀ c ∈ m.text base alt, c ≠ code ' ' := by
  intro c hc
  unfold Numeral.text at hc
  rw [List.mem_append, List.mem_append] at hc
  obtain (hc | hc) | hc := hc
  · split at hc
    · rw [List.mem_singleton.mp hc]
      decide
    · exact absurd hc List.not_mem_nil
  · have hall : c ∈ [code '0', code 'x'] := by
      unfold prefixOf at hc
      split_ifs at hc <;> simp_all
    have hno : ∀ c ∈ [code '0', code 'x'], c ≠ code ' ' := of_all (by decide)
    exact hno c hall
  · obtain ⟨d, hd, rfl⟩ := List.mem_map.mp hc
    exact space_not_digit d (Nat.lt_of_lt_of_le (hds d hd) hmax)

theorem dropWhile_spaces (k : ℕ) {body rest : List UInt8} (hbody : body ≠ []) (hno : ∀ c ∈ body, c ≠ code ' ') :
    (List.replicate k (code ' ') ++ (body ++ rest)).dropWhile (· == code ' ') = body ++ rest := by
  rw [List.dropWhile_append_of_pos]
  · cases body with
    | nil => exact absurd rfl hbody
    | cons c body => exact List.dropWhile_cons_of_neg (by simpa using hno c List.mem_cons_self)
  · intro c hc
    rw [List.eq_of_mem_replicate hc]
    rfl

/-- Spaces around text that has none are removed. -/
theorem strip_spaces (i j : ℕ) {body : List UInt8} (hbody : body ≠ []) (hno : ∀ c ∈ body, c ≠ code ' ') :
    strip (List.replicate i (code ' ') ++ (body ++ List.replicate j (code ' '))) = body := by
  unfold strip
  rw [dropWhile_spaces i hbody hno, List.reverse_append, List.reverse_replicate]
  have hdrop := @dropWhile_spaces j body.reverse [] (List.reverse_ne_nil_iff.mpr hbody) (by simpa using hno)
  rw [List.append_nil] at hdrop
  rw [hdrop, List.reverse_reverse]

/-- The numeral that is printed, with the zeros that fill the field. -/
def stretched (pf : PF) : Numeral :=
  let zeros := List.replicate (slack (signPrefix pf) (basePrefix pf) (text (digitsOf pf.base pf.num)) pf) 0
  ⟨decide (pf.sign ≠ 0),
    if pf.fillchar ≠ code '0' then digitsOf pf.base pf.num
    else if pf.rightspc = true then digitsOf pf.base pf.num ++ zeros
    else zeros ++ digitsOf pf.base pf.num⟩

theorem stretched_digits (h : Valid pf) :
    (stretched pf).ds ≠ [] ∧ ∀ d ∈ (stretched pf).ds, d < pf.base := by
  have hbase : 1 < pf.base := by
    have := h.base_bounds
    omega
  have hne := digitsOf_ne_nil hbase pf.num
  have hlt := digitsOf_lt hbase pf.num
  have hzeros : ∀ k, ∀ d ∈ List.replicate k 0, d < pf.base := by
    intro k d hd
    rw [List.eq_of_mem_replicate hd]
    omega
  unfold stretched
  dsimp only
  split_ifs
  · exact ⟨hne, hlt⟩
  · refine ⟨by simp [hne], fun d hd => ?_⟩
    obtain hd | hd := List.mem_append.mp hd
    · exact hlt d hd
    · exact hzeros _ d hd
  · refine ⟨by simp [hne], fun d hd => ?_⟩
    obtain hd | hd := List.mem_append.mp hd
    · exact hzeros _ d hd
    · exact hlt d hd

/-- Zeros are zeros as text. -/
theorem text_zeros (k : ℕ) : text (List.replicate k 0) = List.replicate k (code '0') := by
  simp [text, digits]

theorem text_append (ds ds' : List ℕ) : text (ds ++ ds') = text ds ++ text ds' := List.map_append

theorem strip_padded (h : Valid pf) :
    strip (padded (signPrefix pf) (basePrefix pf) (text (digitsOf pf.base pf.num)) pf) =
      (stretched pf).text pf.base pf.baseprefix := by
  obtain ⟨hne, hlt⟩ := stretched_digits h
  have hno : ∀ c ∈ (stretched pf).text pf.base pf.baseprefix, c ≠ code ' ' := text_no_space h.base_bounds.2 hlt
  have hbody : (stretched pf).text pf.base pf.baseprefix ≠ [] := by
    simp [Numeral.text, text, hne]
  have hsign : (if (stretched pf).negative = true then [code '-'] else []) = signPrefix pf := by
    simp [stretched, signPrefix]
  have htext : (stretched pf).text pf.base pf.baseprefix =
      signPrefix pf ++ basePrefix pf ++ text (stretched pf).ds := by
    rw [Numeral.text, hsign]
    rfl
  -- on either side there may be spaces, of which none are left
  suffices hshape : ∃ i j, padded (signPrefix pf) (basePrefix pf) (text (digitsOf pf.base pf.num)) pf =
      List.replicate i (code ' ') ++ ((stretched pf).text pf.base pf.baseprefix ++ List.replicate j (code ' ')) by
    obtain ⟨i, j, hshape⟩ := hshape
    rw [hshape, strip_spaces i j hbody hno]
  have hzero : code ' ' ≠ code '0' := by decide
  rw [htext]
  unfold padded
  obtain hfill | hfill := h.fillchar
  · cases hright : pf.rightspc with
    | true => exact ⟨0, slack (signPrefix pf) (basePrefix pf) (text (digitsOf pf.base pf.num)) pf, by
        simp [stretched, hfill, hzero]⟩
    | false => exact ⟨slack (signPrefix pf) (basePrefix pf) (text (digitsOf pf.base pf.num)) pf, 0, by
        simp [stretched, hfill, hzero]⟩
  · cases hright : pf.rightspc with
    | true => exact ⟨0, 0, by simp [stretched, hfill, hright, text_append, text_zeros]⟩
    | false => exact ⟨0, 0, by simp [stretched, hfill, hright, text_append, text_zeros]⟩

theorem digit_inj : ∀ d < 16, ∀ d' < 16, digits.getD d 0 = digits.getD d' 0 → d = d' := by decide

theorem minus_not_digit : ∀ d < 16, digits.getD d 0 ≠ code '-' := by decide

theorem text_inj {ds ds' : List ℕ} (hds : ∀ d ∈ ds, d < 16) (hds' : ∀ d ∈ ds', d < 16) (h : text ds = text ds') :
    ds = ds' := by
  induction ds generalizing ds' with
  | nil => exact (List.map_eq_nil_iff.mp h.symm).symm
  | cons d ds ih =>
    cases ds' with
    | nil => exact absurd h (List.cons_ne_nil _ _)
    | cons d' ds' =>
      obtain ⟨hhead, htail⟩ := List.cons.inj h
      rw [digit_inj d (hds d List.mem_cons_self) d' (hds' d' List.mem_cons_self) hhead,
        ih (fun e he => hds e (List.mem_cons_of_mem d he)) (fun e he => hds' e (List.mem_cons_of_mem d' he)) htail]

/-- There is no minus sign after the sign. -/
theorem minus_unsigned {base : ℕ} {alt : Bool} {ds : List ℕ} (hds : ∀ d ∈ ds, d < 16) :
    code '-' ∉ prefixOf base alt ++ text ds := by
  intro hmem
  obtain hmem | hmem := List.mem_append.mp hmem
  · have hno : code '-' ∉ [code '0', code 'x'] := by decide
    apply hno
    unfold prefixOf at hmem
    split_ifs at hmem <;> simp_all
  · obtain ⟨d, hd, heq⟩ := List.mem_map.mp hmem
    exact minus_not_digit d (hds d hd) heq

/-- Text is a numeral in one way at most. -/
theorem numeral_inj {base : ℕ} {alt : Bool} {m m' : Numeral} (hds : ∀ d ∈ m.ds, d < 16) (hds' : ∀ d ∈ m'.ds, d < 16)
    (h : m.text base alt = m'.text base alt) : m = m' := by
  obtain ⟨negative, ds⟩ := m
  obtain ⟨negative', ds'⟩ := m'
  have hno : code '-' ∉ prefixOf base alt ++ text ds := minus_unsigned hds
  have hno' : code '-' ∉ prefixOf base alt ++ text ds' := minus_unsigned hds'
  simp only [Numeral.text, List.append_assoc] at h
  cases negative with
  | true =>
    cases negative' with
    | true => exact congrArg _ (text_inj hds hds' (List.append_cancel_left (List.append_cancel_left h)))
    | false =>
      simp only [Bool.false_eq_true, if_true, if_false, List.nil_append] at h
      exact absurd (h ▸ List.mem_append_left _ List.mem_cons_self) hno'
  | false =>
    cases negative' with
    | true =>
      simp only [Bool.false_eq_true, if_true, if_false, List.nil_append] at h
      exact absurd (h.symm ▸ List.mem_append_left _ List.mem_cons_self) hno
    | false => exact congrArg _ (text_inj hds hds' (List.append_cancel_left (List.append_cancel_left h)))

/-- The zeros are after the digits of a number that is not zero. -/
def Spoiled (pf : PF) : Prop :=
  pf.rightspc = true ∧ pf.fillchar = code '0' ∧ pf.num ≠ 0 ∧
    ((signPrefix pf).length + (basePrefix pf).length + (digitsOf pf.base pf.num).length : ℕ) < pf.spacing

theorem stretched_value_iff (h : Valid pf) : (stretched pf).value pf.base = valueOf pf ↔ ¬Spoiled pf := by
  have hbase : 1 < pf.base := by
    have := h.base_bounds
    omega
  have hvalue : ∀ k : ℕ, (stretched pf).number pf.base = k →
      ((stretched pf).value pf.base = valueOf pf ↔ k = pf.num) := by
    intro k hk
    unfold Numeral.value valueOf
    rw [hk]
    by_cases hsign : pf.sign = 0
    · simp [stretched, hsign]
    · simp [stretched, hsign]
  have hslack : slack (signPrefix pf) (basePrefix pf) (text (digitsOf pf.base pf.num)) pf = 0 ↔
      ¬((signPrefix pf).length + (basePrefix pf).length + (digitsOf pf.base pf.num).length : ℕ) < pf.spacing := by
    unfold slack
    rw [text_length]
    omega
  by_cases hfill : pf.fillchar = code '0'
  · by_cases hright : pf.rightspc = true
    · -- each zero after the digits multiplies the number by the base
      rw [hvalue (pf.base ^ slack (signPrefix pf) (basePrefix pf) (text (digitsOf pf.base pf.num)) pf * pf.num)]
      · have hone : ∀ k : ℕ, pf.base ^ k * pf.num = pf.num ↔ pf.num = 0 ∨ k = 0 := by
          intro k
          rw [mul_left_eq_self₀, Nat.pow_eq_one]
          omega
        rw [hone, hslack, Spoiled]
        tauto
      · simp [Numeral.number, stretched, hfill, hright, Nat.ofDigits_append, ofDigits_digitsOf]
    · rw [hvalue pf.num (by simp [Numeral.number, stretched, hfill, hright, ofDigits_digitsOf])]
      simp [Spoiled, hright]
  · rw [hvalue pf.num (by simp [Numeral.number, stretched, hfill, ofDigits_digitsOf])]
    simp [Spoiled, hfill]

theorem formats_iff (h : Valid pf) : Formats pf ↔ ¬Spoiled pf := by
  obtain ⟨hne, hlt⟩ := stretched_digits h
  rw [← stretched_value_iff h]
  unfold Formats
  constructor
  · rintro ⟨txt, unpadded, htxt, -, ⟨m, -, hds, hm, hvalue⟩, -⟩
    rw [emitted_padded h] at htxt
    rw [← Except.ok.inj htxt, strip_padded h] at hm
    have hmax : ∀ {ds : List ℕ}, (∀ d ∈ ds, d < pf.base) → ∀ d ∈ ds, d < 16 := fun hds d hd =>
      Nat.lt_of_lt_of_le (hds d hd) h.base_bounds.2
    rw [← numeral_inj (hmax hds) (hmax hlt) hm]
    exact hvalue
  · intro hvalue
    refine ⟨_, _, emitted_padded h, emitted_unpadded h, ⟨stretched pf, hne, hlt, ?_, hvalue⟩, emitted_length pf⟩
    exact (strip_padded h).symm

theorem toUnsigned_small {v : ℤ} (h : 0 ≤ v) (hlt : v < 2^64) : (toUnsigned v : ℤ) = v := by
  unfold toUnsigned longlongBits
  omega

theorem toUnsigned_lt (v : ℤ) : toUnsigned v < 2^longlongBits := by
  unfold toUnsigned longlongBits
  omega

/-- What reading an argument leaves of the settings. -/
structure Read (ch : UInt8) (n bits : ℕ) (ap : List Arg) (pf pf' : PF) : Prop where
  num : pf'.num < 2^longlongBits
  value : valueOf pf' = if ch = code 'd' then (n : ℤ).bmod (2^bits) else (n % 2^bits : ℕ)
  rest : pf' = { pf with ap := ap, num := pf'.num, sign := pf'.sign }

theorem Size.bits_bounds (size : Size) : 1 ≤ size.bits ∧ size.bits ≤ longlongBits := by
  cases size <;> decide

/-- An argument is read as it was passed, signed or not. -/
theorem pfGetnum_reads {ap : List Arg} (hap : pf.ap = .number n::ap) (hsign : pf.sign = 0) (ch : UInt8) :
    ∃ pf', pfGetnum ch pf = .ok pf' ∧
      Read ch n (if ch = code 'p' then pointerBits else pf.size.bits) ap pf pf' := by
  obtain ⟨hpos, hmax⟩ := pf.size.bits_bounds
  have hpow : 2^pf.size.bits ≤ 2^longlongBits := Nat.pow_le_pow_right (by decide) hmax
  have hlow := Int.le_bmod (x := n) (m := 2^pf.size.bits) (Nat.two_pow_pos _)
  have hhigh := Int.bmod_lt (x := n) (m := 2^pf.size.bits) (Nat.two_pow_pos _)
  unfold pfGetnum vaArg
  rw [hap]
  simp only [bind, Except.bind]
  by_cases hp : ch = code 'p'
  · have hd : ch ≠ code 'd' := by
      rw [hp]
      decide
    rw [if_pos hp, if_pos hp]
    refine ⟨_, rfl, Nat.lt_trans (Nat.mod_lt n (Nat.two_pow_pos _)) (by decide), ?_, rfl⟩
    simp [valueOf, hsign, hd]
  rw [if_neg hp, if_neg hp]
  by_cases hd : ch = code 'd'
  · rw [if_pos hd]
    by_cases hneg : (n : ℤ).bmod (2^pf.size.bits) < 0
    · have hsmall := toUnsigned_small (v := -(n : ℤ).bmod (2^pf.size.bits)) (by omega) (by
        unfold longlongBits at *
        omega)
      rw [if_pos hneg]
      refine ⟨_, rfl, ?_, ?_, rfl⟩
      · dsimp only
        exact toUnsigned_lt _
      · simp only [valueOf]
        rw [if_pos (by decide), hsmall, Int.neg_neg, if_pos hd]
    · have hsmall := toUnsigned_small (v := (n : ℤ).bmod (2^pf.size.bits)) (by omega) (by
        unfold longlongBits at *
        omega)
      rw [if_neg hneg]
      refine ⟨_, rfl, ?_, ?_, rfl⟩
      · dsimp only
        exact toUnsigned_lt _
      · simp only [valueOf, hsign]
        rw [if_neg (by decide), hsmall, if_pos hd]
  · rw [if_neg hd]
    refine ⟨_, rfl, Nat.lt_of_lt_of_le (Nat.mod_lt n (Nat.two_pow_pos _)) hpow, ?_, rfl⟩
    simp [valueOf, hsign, hd]

theorem Read.valid {ch : UInt8} {bits : ℕ} {ap : List Arg} (h : Read ch n bits ap pf pf') (hpf : Valid pf) :
    Valid pf' := by
  rw [h.rest]
  exact ⟨hpf.base, h.num, hpf.fillchar⟩

/-- With an argument of 64 bits to come. -/
def longlong (v : ℤ) (pf : PF) : PF := { pf with ap := [.number (toUnsigned v)], size := .llongsz, sign := 0 }

theorem bmod_toUnsigned {v : ℤ} (hlow : -2^63 ≤ v) (hhigh : v < 2^63) :
    (toUnsigned v : ℤ).bmod (2^longlongBits) = v := by
  have hcast : (toUnsigned v : ℤ) = v % (2^longlongBits : ℕ) := by
    unfold toUnsigned longlongBits
    omega
  rw [hcast, Int.emod_bmod]
  apply Int.bmod_eq_of_le
  · unfold longlongBits
    omega
  · unfold longlongBits
    omega

theorem longlong_signed {v : ℤ} (h : Valid pf) (hlow : -2^63 ≤ v) (hhigh : v < 2^63) :
    ∃ pf', pfGetnum (code 'd') (longlong v pf) = .ok pf' ∧ Valid pf' ∧ valueOf pf' = v := by
  obtain ⟨pf', hrun, hread⟩ := @pfGetnum_reads _ (longlong v pf) _ rfl rfl (code 'd')
  have hvalid : Valid (longlong v pf) := ⟨h.base, h.num, h.fillchar⟩
  refine ⟨pf', hrun, hread.valid hvalid, ?_⟩
  rw [hread.value, if_pos rfl, if_neg (by decide)]
  exact bmod_toUnsigned hlow hhigh

theorem longlong_unsigned {v : ℤ} (h : Valid pf) (hlow : 0 ≤ v) (hhigh : v < 2^64) :
    ∀ ch ∈ [code 'u', code 'o', code 'x'],
      ∃ pf', pfGetnum ch (longlong v pf) = .ok pf' ∧ Valid pf' ∧ valueOf pf' = v := by
  intro ch hch
  have hno : ∀ ch ∈ [code 'u', code 'o', code 'x'], ch ≠ code 'p' ∧ ch ≠ code 'd' := of_all (by decide)
  obtain ⟨pf', hrun, hread⟩ := @pfGetnum_reads _ (longlong v pf) _ rfl rfl ch
  have hvalid : Valid (longlong v pf) := ⟨h.base, h.num, h.fillchar⟩
  refine ⟨pf', hrun, hread.valid hvalid, ?_⟩
  rw [hread.value, if_neg (hno ch hch).2, if_neg (hno ch hch).1]
  show ((toUnsigned v % 2^longlongBits : ℕ) : ℤ) = v
  rw [Nat.mod_eq_of_lt (toUnsigned_lt v), toUnsigned_small hlow hhigh]

/-- A number is printed as it should be just where no zeros are put after its digits, and every argument of 64 bits
is printed as the value that was passed. -/
theorem printnum_right_iff {pf : PF} (h : Valid pf) : (Formats pf ↔ ¬Spoiled pf) ∧
    (∀ v : ℤ, -2^63 ≤ v → v < 2^63 →
      ∃ pf', pfGetnum (code 'd') (longlong v pf) = .ok pf' ∧ Valid pf' ∧ valueOf pf' = v) ∧
    ∀ v : ℤ, 0 ≤ v → v < 2^64 → ∀ ch ∈ [code 'u', code 'o', code 'x'],
      ∃ pf', pfGetnum ch (longlong v pf) = .ok pf' ∧ Valid pf' ∧ valueOf pf' = v :=
  ⟨formats_iff h, fun _ => longlong_signed h, fun _ => longlong_unsigned h⟩

/-- The least number of 64 bits, in a wide field. -/
def least : PF := { fresh [] with base := 10, num := 2^63, sign := -1, spacing := 25, fillchar := code '0' }

theorem least_formats : Valid least ∧ Formats least ∧ valueOf least = -2^63 := by
  have hvalid : Valid least := ⟨.inr (.inl rfl), by decide, .inr rfl⟩
  exact ⟨hvalid, (printnum_right_iff hvalid).1.mpr fun h => Bool.false_ne_true h.1, by decide⟩

/-- A field of five characters with the number at the left and zeros to fill it. -/
def leftZeros : PF := { fresh [] with base := 10, num := 12, spacing := 5, rightspc := true, fillchar := code '0' }

/-- The number 12 is printed as 12000. -/
theorem leftZeros_spoiled : (Valid leftZeros ∧ ¬Formats leftZeros) ∧
    (vprintf [code '%', code '-', code '0', code '5', code 'd'] [.number 12]).map (·.out) =
      .ok [code '1', code '2', code '0', code '0', code '0'] := by
  have hvalid : Valid leftZeros := ⟨.inr (.inl rfl), by decide, .inr rfl⟩
  have hspoiled : Spoiled leftZeros := by
    refine ⟨rfl, rfl, by decide, ?_⟩
    simp [leftZeros, digitsOf, signPrefix, basePrefix, fresh, pfEndfield]
  exact ⟨⟨hvalid, fun h => (formats_iff hvalid).mp h hspoiled⟩, rfl⟩

/-- What holds all along a session: numbers are only filled with spaces or zeros, and the count is that of what was
sent, as an `int`. -/
structure Sound (pf : PF) : Prop where
  fillchar : pf.fillchar = code ' ' ∨ pf.fillchar = code '0'
  charcount : pf.charcount = toInt pf.out.length

theorem Sound.print (h : Sound pf) (txt : List UInt8) : Sound (pfPrint txt pf) where
  fillchar := h.fillchar
  charcount := by
    show toInt (pf.charcount + txt.length) = toInt ((pf.out ++ txt).length : ℕ)
    rw [h.charcount, List.length_append, toInt, toInt, toInt, Int.bmod_add_bmod]
    push_cast
    rfl

theorem Sound.fill (h : Sound pf) (spc : ℕ) : Sound (pfFill spc pf) := by
  induction spc generalizing pf with
  | zero => exact h
  | succ spc ih => exact ih (h.print _)

theorem Sound.pad (h : Sound pf) (p : Bool) (spc : ℤ) : Sound (pad p spc pf) := by
  unfold Printf.pad
  split
  · exact h.fill _
  · exact h

theorem Sound.printstuff (h : Sound pf) (pre pre2 stuff : List UInt8) : Sound (pfPrintstuff pre pre2 stuff pf) :=
  ((((((h.pad _ _).print pre).print pre2).pad _ _).print stuff).pad _ _)

theorem Sound.endfield (h : Sound pf) : Sound (pfEndfield pf) := ⟨.inl rfl, h.charcount⟩

/-- The sign is only set while a number is printed. -/
structure Open (pf : PF) : Prop extends Sound pf where
  sign : pf.sign = 0

theorem Open.modifier (h : Open pf) {ch : UInt8} (hch : ch ∈ modifiers) :
    ∃ pf', pfModifier ch pf = .ok pf' ∧ Open pf' := by
  have hdigit : ∀ ch ∈ modifiers, ch = code '#' ∨ ch = code '-' ∨ ch = code 'l' ∨ ch = code 'z' ∨ ch = code '0' ∨
      (code '0' < ch ∧ ch ≤ code '9') := of_all (by decide)
  unfold pfModifier
  split_ifs
  · exact ⟨_, rfl, ⟨h.fillchar, h.charcount⟩, h.sign⟩
  · exact ⟨_, rfl, ⟨h.fillchar, h.charcount⟩, h.sign⟩
  · exact ⟨_, rfl, ⟨h.fillchar, h.charcount⟩, h.sign⟩
  · exact ⟨_, rfl, ⟨h.fillchar, h.charcount⟩, h.sign⟩
  · exact ⟨_, rfl, ⟨h.fillchar, h.charcount⟩, h.sign⟩
  · exact ⟨_, rfl, ⟨h.fillchar, h.charcount⟩, h.sign⟩
  · exact ⟨_, rfl, ⟨.inr rfl, h.charcount⟩, h.sign⟩
  · exact ⟨_, rfl, ⟨h.fillchar, h.charcount⟩, h.sign⟩
  · next hsharp hminus hl hz hzero hdigits =>
    exact absurd (((((hdigit ch hch).resolve_left hsharp).resolve_left hminus).resolve_left hl).resolve_left hz
      |>.resolve_left hzero) hdigits

theorem baseFor_supported {ch : UInt8} (hch : ch ∈ conversions) (base : ℕ) :
    baseFor ch base = 8 ∨ baseFor ch base = 10 ∨ baseFor ch base = 16 := by
  have hcases : ∀ ch ∈ conversions,
      (ch = code 'd' ∨ ch = code 'u') ∨ (ch = code 'x' ∨ ch = code 'p') ∨ ch = code 'o' := of_all (by decide)
  unfold baseFor
  split_ifs
  · exact .inr (.inl rfl)
  · exact .inr (.inr rfl)
  · exact .inl rfl
  · next hd hx ho => exact absurd (((hcases ch hch).resolve_left hd).resolve_left hx) ho

/-- The bits of an argument that a conversion reads. -/
def bitsFor (ch : UInt8) (size : Size) : ℕ := if ch = code 'p' then pointerBits else size.bits

/-- The value that is passed for a conversion. -/
def passed (ch : UInt8) (size : Size) (n : ℕ) : ℤ :=
  if ch = code 'd' then (n : ℤ).bmod (2^bitsFor ch size) else (n % 2^bitsFor ch size : ℕ)

theorem conversion_once : ∀ ch ∈ conversions, ch ≠ 0 ∧ ch ∉ modifiers := of_all (by decide)

theorem pfSend_conversion {ch : UInt8} (hin : pf.inPct = true) (hch : ch ∈ conversions) : pfSend ch pf =
    (pfGetnum ch pf).bind fun pf₁ => (pfPrintnum (pfSetbase ch pf₁)).map pfEndfield := by
  obtain ⟨hzero, hmodifier⟩ := conversion_once ch hch
  unfold pfSend
  rw [if_neg hzero, if_neg (by simp [hin]), if_neg (by simp [hin]), if_neg hmodifier, if_pos hch]
  rfl

/-- The settings that a number is printed with in a session are valid, and its value is the one that was passed. -/
theorem pfSend_number {ch : UInt8} {ap : List Arg} (h : Open pf) (hin : pf.inPct = true) (hch : ch ∈ conversions)
    (hap : pf.ap = .number n::ap) : ∃ settings txt pf', Valid settings ∧ valueOf settings = passed ch pf.size n ∧
      emitted settings = .ok txt ∧ pfSend ch pf = .ok pf' ∧ pf'.out = pf.out ++ txt ∧ Open pf' := by
  obtain ⟨pf₁, hrun, hread⟩ := pfGetnum_reads hap h.sign ch
  have hfill : pf₁.fillchar = pf.fillchar := by rw [hread.rest]
  have hout : pf₁.out = pf.out := by rw [hread.rest]
  have hcount : pf₁.charcount = pf.charcount := by rw [hread.rest]
  have hvalid : Valid (pfSetbase ch pf₁) := ⟨baseFor_supported hch pf₁.base, hread.num, hfill ▸ h.fillchar⟩
  have hsound : Sound (pfSetbase ch pf₁) := ⟨hvalid.fillchar, by
    show pf₁.charcount = toInt pf₁.out.length
    rw [hcount, hout, h.charcount]⟩
  have hsend : pfSend ch pf = .ok (pfEndfield (pfPrintstuff (signPrefix (pfSetbase ch pf₁)) (basePrefix (pfSetbase ch pf₁))
      (text (digitsOf (pfSetbase ch pf₁).base (pfSetbase ch pf₁).num)) (pfSetbase ch pf₁))) := by
    rw [pfSend_conversion hin hch, hrun, Except.bind, pfPrintnum_prints hvalid, Except.map]
  refine ⟨_, _, _, hvalid, hread.value, emitted_padded hvalid, hsend, ?_, (hsound.printstuff _ _ _).endfield, rfl⟩
  rw [← hout]
  exact pfPrintstuff_out (field_length hvalid)

theorem vaArg_missing (h : ∀ n ap, pf.ap ≠ .number n::ap) : vaArg pf = .error .noArgument := by
  unfold vaArg
  split
  · next hap => exact absurd hap (h _ _)
  · rfl

/-- Each character of a format keeps what holds, unless it is for an argument that is missing. -/
theorem pfSend_open {ch : UInt8} (h : Open pf) (hch : ch ≠ 0) : Ensures (· = .noArgument) Open (pfSend ch pf) := by
  have hprint : ∀ (txt : List UInt8) (ap : List Arg), Open (pfEndfield (pfPrintstuff [] [] txt { pf with ap := ap })) := by
    intro txt ap
    have hsound : Sound { pf with ap := ap } := ⟨h.fillchar, h.charcount⟩
    exact ⟨(hsound.printstuff _ _ _).endfield, rfl⟩
  by_cases hnumber : pf.inPct = true ∧ ch ∈ conversions
  · by_cases harg : ∃ n ap, pf.ap = .number n::ap
    · obtain ⟨n, ap, hap⟩ := harg
      obtain ⟨_, _, pf', -, -, -, hrun, -, hopen⟩ := pfSend_number h hnumber.1 hnumber.2 hap
      rw [hrun]
      exact hopen
    · have hmissing := vaArg_missing fun n ap hap => harg ⟨n, ap, hap⟩
      rw [pfSend_conversion hnumber.1 hnumber.2, pfGetnum, hmissing]
      rfl
  · unfold pfSend
    rw [if_neg hch]
    split_ifs with h₁ h₂ h₃ h₄ h₅ h₆
    · exact ⟨h.toSound.print _, h.sign⟩
    · exact ⟨⟨h.fillchar, h.charcount⟩, h.sign⟩
    · obtain ⟨pf', hrun, hopen⟩ := h.modifier h₃
      rw [hrun]
      exact hopen
    · exact absurd ⟨by simpa using h₂, h₄⟩ hnumber
    · split
      · exact hprint _ _
      · rfl
    · by_cases harg : ∃ n ap, pf.ap = .number n::ap
      · obtain ⟨n, ap, hap⟩ := harg
        rw [vaArg, hap]
        exact hprint _ _
      · rw [vaArg_missing fun n ap hap => harg ⟨n, ap, hap⟩]
        rfl
    · exact hprint _ _

theorem fresh_open (ap : List Arg) : Open (fresh ap) where
  fillchar := .inl rfl
  charcount := (toInt_small (n := 0) (by decide)).symm
  sign := rfl

/-- A session only fails for want of an argument: it never leaves the buffer of a number, and what it returns is the
number of characters that it has sent. -/
theorem vprintf_sound (format : List UInt8) (ap : List Arg) (hformat : 0 ∉ format) :
    Ensures (· = .noArgument) (fun pf => pf.charcount = toInt pf.out.length) (vprintf format ap) := by
  have hguard : ∀ (as : List UInt8) (pf : PF), 0 ∉ as → Guarded pfSend (fun ch _ => ch ≠ 0) as pf := by
    intro as
    induction as with
    | nil => exact fun _ _ => trivial
    | cons ch as ih =>
      intro pf hno
      rw [List.mem_cons, not_or] at hno
      exact ⟨Ne.symm hno.1, fun pf' _ => ih pf' hno.2⟩
  have hrun : Ensures (· = .noArgument) Open (run pfSend format (fresh ap)) :=
    guarded_ensures (fun ch pf hopen hch => pfSend_open hopen hch) (hguard format (fresh ap) hformat) (fresh_open ap)
  unfold vprintf
  cases hout : run pfSend format (fresh ap) with
  | ok pf =>
    rw [hout] at hrun
    exact hrun.toSound.charcount
  | error e =>
    rw [hout] at hrun
    exact hrun

end OS161.Printf
