import OS161.Pieces
import OS161.SfsIo

/-!
# The pieces of a transfer

A transfer touches consecutive blocks of a file. Each piece lies within one of
them, the first and the last may be shorter than a block, and `sfs_io` carries
them out in order; whatever holds from one boundary to the next holds at the end.
-/

set_option autoImplicit false

namespace OS161.SfsPieces

open OS161.Vfs OS161.CopyInOut OS161.Sfs OS161.SfsIo OS161.Pieces

/-- Where the bytes for position `p` go: the number of a block has 32 bits. -/
def wrapped (p : ℕ) : ℕ := p % 2^41

/-- The block of the file with that byte. -/
def home (p : ℕ) : ℕ := p / SFS_BLOCKSIZE % 2^32

/-- The number of blocks that `n` bytes at `p` touch. -/
def pieces (p n : ℕ) : ℕ := (p % SFS_BLOCKSIZE + n + (SFS_BLOCKSIZE - 1)) / SFS_BLOCKSIZE

/-- How many of the bytes are in the first `i` of them. -/
def cut (p n i : ℕ) : ℕ := min n (SFS_BLOCKSIZE*i - p % SFS_BLOCKSIZE)

variable {buf p n i k l : ℕ} {u : Uio} {w : World} {r : IoResult} {next : Uio → World → IoResult} {m : UserMemory}
  {Ok : ℕ → Prop} {At Near : ℕ → Uio × World → Prop}

theorem cut_zero : cut p n 0 = 0 := by simp [cut]

/-- Where piece `i` lies: in one block of the file, from byte `(p + cut p n i) % SFS_BLOCKSIZE` on. -/
structure Within (p n i : ℕ) : Prop where
  at_block : wrapped p + cut p n i = SFS_BLOCKSIZE*(home p + i) + (p + cut p n i) % SFS_BLOCKSIZE
  file_block : (p + cut p n i) / SFS_BLOCKSIZE % 2^32 = (home p + i) % 2^32
  le : cut p n i ≤ cut p n (i+1)
  inside : (p + cut p n i) % SFS_BLOCKSIZE + (cut p n (i+1) - cut p n i) ≤ SFS_BLOCKSIZE
  all : cut p n (i+1) ≤ n

theorem within_piece (hi : i < pieces p n) : Within p n i := by
  simp only [pieces, SFS_BLOCKSIZE] at hi
  constructor <;> simp only [wrapped, home, cut, SFS_BLOCKSIZE] <;> omega

/-- The bytes of piece `i`, by their place in its block. -/
theorem Within.bytes_iff (h : Within p n i) (x : ℕ) :
    (wrapped p + cut p n i ≤ x ∧ x < wrapped p + cut p n (i+1)) ↔
      x / SFS_BLOCKSIZE = home p + i ∧ (p + cut p n i) % SFS_BLOCKSIZE ≤ x % SFS_BLOCKSIZE ∧
        x % SFS_BLOCKSIZE < (p + cut p n i) % SFS_BLOCKSIZE + (cut p n (i+1) - cut p n i) := by
  have hblock := h.at_block
  have hle := h.le
  have hinside := h.inside
  generalize (p + cut p n i) % SFS_BLOCKSIZE = skip at *
  unfold SFS_BLOCKSIZE at *
  omega

theorem cut_all : cut p n (pieces p n) = n := by
  simp only [cut, pieces, SFS_BLOCKSIZE]
  omega

/-- Every byte up to a boundary is in one of the pieces before it. -/
theorem piece_of {j m : ℕ} (hj : j < cut p n m) : ∃ i < m, cut p n i ≤ j ∧ j < cut p n (i+1) := by
  induction m with
  | zero =>
    rw [cut_zero] at hj
    omega
  | succ m ih =>
    by_cases hbefore : j < cut p n m
    · obtain ⟨i, hi, hin⟩ := ih hbefore
      exact ⟨i, by omega, hin⟩
    · exact ⟨m, Nat.lt_succ_self m, by omega, hj⟩

/-- All bytes of a block of the caller's memory can be read. -/
def Readable (m : UserMemory) (base len : ℕ) : Prop := ∀ j < len, base+j < USERSPACETOP ∧ m (base+j) ≠ none

/-- The caller's part of piece `i`, counted from its own start. -/
theorem readable_iff (hle : cut p n i ≤ cut p n (i+1)) :
    Readable m (buf + cut p n i) (cut p n (i+1) - cut p n i) ↔
      ∀ j, cut p n i ≤ j → j < cut p n (i+1) → buf+j < USERSPACETOP ∧ m (buf+j) ≠ none := by
  constructor
  · intro hread j hj hj'
    have hbyte := hread (j - cut p n i) (by omega)
    rwa [show buf + cut p n i + (j - cut p n i) = buf+j by omega] at hbyte
  · intro hmem j hj
    rw [Nat.add_assoc]
    exact hmem (cut p n i + j) (by omega) (by omega)

/-- Pieces `i` to `i+k`, as far as they can be done. -/
def Goes (Ok : ℕ → Prop) (At Near : ℕ → Uio × World → Prop) (i k : ℕ) (r : IoResult) : Prop :=
  ∃ e u w, r = .ok (e, u, w) ∧ Progress Ok At Near i k e (u, w)

theorem Goes.andThen (h : Goes Ok At Near i k r)
    (hnext : ∀ u w, At (i+k) (u, w) → Goes Ok At Near (i+k) l (next u w)) :
    Goes Ok At Near i (k+l) (SfsIo.andThen r next) := by
  obtain ⟨e, u, w, rfl, hp⟩ := h
  cases e with
  | none =>
    cases hp with
    | done _ hok hat =>
      obtain ⟨e', u', w', hrun, hp'⟩ := hnext u w hat
      exact ⟨e', u', w', hrun, (Progress.done _ hok hat).next hp'⟩
  | some e => exact ⟨some e, u, w, rfl, hp.stop l⟩

/-- What `sfs_io` relies on: either way to do a piece gets from a boundary to the next. -/
structure Carries (Ok : ℕ → Prop) (At Near : ℕ → Uio × World → Prop) (p n : ℕ) : Prop where
  offset : ∀ i u w, At i (u, w) → u.offset = p + cut p n i
  resid : ∀ i u w, At i (u, w) → u.resid = n - cut p n i
  partialio : ∀ i u w, i < pieces p n → At i (u, w) →
    Goes Ok At Near i 1 (sfsPartialio ((p + cut p n i) % SFS_BLOCKSIZE) (cut p n (i+1) - cut p n i) u w)
  blockio : ∀ i u w, i < pieces p n → At i (u, w) → cut p n (i+1) = cut p n i + SFS_BLOCKSIZE →
    Goes Ok At Near i 1 (sfsBlockio u w)

/-- A whole block is left to write. -/
theorem whole_piece (haligned : (p + cut p n i) % SFS_BLOCKSIZE = 0) (hn : SFS_BLOCKSIZE ≤ n - cut p n i) :
    i < pieces p n ∧ cut p n (i+1) = cut p n i + SFS_BLOCKSIZE ∧ (p + cut p n (i+1)) % SFS_BLOCKSIZE = 0 := by
  simp only [pieces, cut, SFS_BLOCKSIZE] at *
  omega

theorem Carries.blockLoop (hc : Carries Ok At Near p n) (h : At i (u, w))
    (haligned : (p + cut p n i) % SFS_BLOCKSIZE = 0) (hl : SFS_BLOCKSIZE * l ≤ n - cut p n i) :
    Goes Ok At Near i l (SfsIo.blockLoop l u w) := by
  induction l generalizing i u w with
  | zero => exact ⟨none, u, w, rfl, .none h⟩
  | succ l ih =>
    rw [Nat.mul_succ] at hl
    obtain ⟨hi, hwhole, haligned'⟩ := whole_piece haligned (by omega)
    rw [SfsIo.blockLoop, Nat.add_comm l 1]
    apply (hc.blockio i u w hi h hwhole).andThen
    intro u' w' h'
    exact ih h' haligned' (by omega)

/-- The pieces that are left once whole blocks have been written. -/
theorem last_piece (hi : p % SFS_BLOCKSIZE ≤ SFS_BLOCKSIZE*i) (hle : i ≤ pieces p n)
    (haligned : (p + cut p n i) % SFS_BLOCKSIZE = 0) (hl : l = (n - cut p n i) / SFS_BLOCKSIZE) :
    n - cut p n (i+l) < SFS_BLOCKSIZE ∧ (p + cut p n (i+l)) % SFS_BLOCKSIZE = 0 ∧
      (0 < n - cut p n (i+l) → pieces p n = i+l+1 ∧ cut p n (i+l+1) = n) ∧
      (n - cut p n (i+l) = 0 → pieces p n = i+l) := by
  simp only [pieces, cut, SFS_BLOCKSIZE] at *
  omega

theorem no_piece (hi : p % SFS_BLOCKSIZE ≤ SFS_BLOCKSIZE*i) (hn : n - cut p n i = 0) : pieces p n ≤ i := by
  simp only [pieces, cut, SFS_BLOCKSIZE] at *
  omega

theorem Carries.transferAligned (hc : Carries Ok At Near p n) (h : At i (u, w))
    (hi : p % SFS_BLOCKSIZE ≤ SFS_BLOCKSIZE*i) (hle : i ≤ pieces p n)
    (haligned : cut p n i = n ∨ (p + cut p n i) % SFS_BLOCKSIZE = 0) :
    Goes Ok At Near i (pieces p n - i) (SfsIo.transferAligned u w) := by
  have hresid := hc.resid i u w h
  have hoffset := hc.offset i u w h
  unfold SfsIo.transferAligned
  by_cases hdone : u.resid = 0
  · have hend : pieces p n - i = 0 := by
      have hnone := no_piece hi (show n - cut p n i = 0 by omega)
      omega
    rw [if_pos hdone, hend]
    exact ⟨none, u, w, rfl, .none h⟩
  · have haligned' : (p + cut p n i) % SFS_BLOCKSIZE = 0 := by
      obtain hall | haligned := haligned
      · omega
      · exact haligned
    obtain ⟨hrest, halast, hmore, hless⟩ := last_piece hi hle haligned' rfl
    rw [if_neg hdone, hoffset, if_neg (not_not.mpr haligned'), hresid]
    have hloop := hc.blockLoop (l := (n - cut p n i) / SFS_BLOCKSIZE) h haligned' (Nat.mul_div_le _ _)
    generalize (n - cut p n i) / SFS_BLOCKSIZE = l at *
    have htail : ∀ u' w', At (i+l) (u', w') → Goes Ok At Near (i+l) (pieces p n - (i+l))
        (if SFS_BLOCKSIZE ≤ u'.resid then .error .panic
          else if 0 < u'.resid then sfsPartialio 0 u'.resid u' w' else .ok (none, u', w')) := by
      intro u' w' h'
      rw [hc.resid _ u' w' h', if_neg (by omega)]
      by_cases hlast : 0 < n - cut p n (i+l)
      · obtain ⟨hpieces, hcut⟩ := hmore hlast
        have hgoes := hc.partialio _ u' w' (by omega) h'
        rw [halast, hcut] at hgoes
        rw [if_pos hlast, hpieces, Nat.add_sub_cancel_left]
        exact hgoes
      · rw [if_neg hlast, hless (by omega), Nat.sub_self]
        exact ⟨none, u', w', rfl, .none h'⟩
    have hlen : pieces p n - i = l + (pieces p n - (i+l)) := by
      by_cases hlast : 0 < n - cut p n (i+l)
      · have hpieces := (hmore hlast).1
        omega
      · have hpieces := hless (by omega)
        omega
    rw [hlen]
    exact hloop.andThen htail

theorem Carries.transfer (hc : Carries Ok At Near p n) (h : At 0 (u, w)) :
    Goes Ok At Near 0 (pieces p n) (SfsIo.transfer u w) := by
  have hresid : u.resid = n := by rw [hc.resid 0 u w h, cut_zero, Nat.sub_zero]
  have hoffset : u.offset = p := by rw [hc.offset 0 u w h, cut_zero, Nat.add_zero]
  simp only [SfsIo.transfer, hresid, hoffset]
  by_cases hstart : p % SFS_BLOCKSIZE = 0
  · rw [if_neg (not_not.mpr hstart)]
    have hgoes := hc.transferAligned h (by omega) (Nat.zero_le _) (.inr (by rw [cut_zero]; exact hstart))
    rw [Nat.sub_zero] at hgoes
    exact hgoes
  · have hpos : 0 < pieces p n := by
      simp only [pieces, SFS_BLOCKSIZE] at *
      omega
    have hfirst := hc.partialio 0 u w hpos h
    have hlen : cut p n (0+1) - cut p n 0 = min (SFS_BLOCKSIZE - p % SFS_BLOCKSIZE) n := by
      simp only [cut, SFS_BLOCKSIZE]
      omega
    rw [hlen, cut_zero, Nat.add_zero] at hfirst
    rw [if_pos hstart, show pieces p n = 1 + (pieces p n - 1) by omega]
    apply hfirst.andThen
    intro u' w' h'
    apply hc.transferAligned h'
    · have hlt := Nat.mod_lt p (show 0 < SFS_BLOCKSIZE by decide)
      omega
    · exact hpos
    · simp only [cut, SFS_BLOCKSIZE]
      omega

end OS161.SfsPieces
