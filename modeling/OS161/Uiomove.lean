import OS161.CopyChecks
import OS161.SharedDescriptor

/-!
# Moving data through a uio

`uiomove` goes between a kernel buffer and the blocks of a transfer, which lie
in the kernel or in the current process. Each round takes as much of the first
block as the buffer needs. What is left in `uio_resid` ends the loop once it is
zero, but does not bound a round.
-/

set_option autoImplicit false

namespace OS161.Uiomove

open Function OS161.Vfs OS161.CopyInOut OS161.CopyChecks
open OS161.SharedDescriptor (Rw)

inductive Seg where
  | userispace
  | userspace
  | sysspace
  deriving DecidableEq

structure Iovec where
  iov_base : ℕ
  iov_len : ℕ
  deriving DecidableEq

/-- A transfer; `uio_iovcnt` is the length of `uio_iov`. -/
structure Uio (S : Type) where
  uio_iov : List Iovec
  uio_offset : ℤ
  uio_resid : UInt32
  uio_segflg : Seg
  uio_rw : Rw
  uio_space : Option S
  deriving DecidableEq

structure Memory where
  kernel : Buffer
  user : UserMemory

inductive Stop where
  | assertion
  | ranOutOfBuffers
  | noIovec
  deriving DecidableEq

variable {S : Type}

abbrev MoveResult (S : Type) := Except Stop (Option Errno × Uio S × Memory)

/-- The block goes over as a whole, also onto itself. -/
def memmove (dst src size : ℕ) (k : Buffer) : Buffer :=
  fun a => if dst ≤ a ∧ a < dst + size then k (src + (a - dst)) else k a

/-- A buffer that starts at `ptr` is put back into the kernel's memory. -/
def putBack (ptr : ℕ) (b k : Buffer) : Buffer := fun a => if ptr ≤ a then b (a - ptr) else k a

/-- The bytes of one round, between the kernel's `ptr` and the block at `base`. -/
def transfer (seg : Seg) (rw : Rw) (ptr base size : ℕ) (m : Memory) : Option Errno × Memory :=
  match seg, rw with
  | .sysspace, .read => (none, { m with kernel := memmove base ptr size m.kernel })
  | .sysspace, .write => (none, { m with kernel := memmove ptr base size m.kernel })
  | _, .read =>
    let (result, user) := copyout (fun i => m.kernel (ptr + i)) base size m.user
    (result, { m with user := user })
  | _, .write =>
    let (result, b) := copyin m.user base size (fun i => m.kernel (ptr + i))
    (result, { m with kernel := putBack ptr b m.kernel })

def Uio.advance (u : Uio S) (iov : Iovec) (rest : List Iovec) (size : ℕ) : Uio S :=
  { u with
    uio_iov := ⟨iov.iov_base + size, iov.iov_len - size⟩ :: rest
    uio_resid := u.uio_resid - UInt32.ofNat size
    uio_offset := u.uio_offset + size }

/-- The loop of `uiomove`, with `n` bytes of the buffer left. -/
def moveLoop (ptr n : ℕ) (u : Uio S) (m : Memory) : MoveResult S :=
  if 0 < n ∧ 0 < u.uio_resid then
    match _hiov : u.uio_iov with
    | [] => .error .noIovec
    | iov::rest =>
      let size := if n < iov.iov_len then n else iov.iov_len
      if _hsize : size = 0 then
        if rest.length = 0 then .error .ranOutOfBuffers else moveLoop ptr n { u with uio_iov := rest } m
      else
        match transfer u.uio_segflg u.uio_rw ptr iov.iov_base size m with
        | (some result, m') => .ok (some result, u, m')
        | (none, m') => moveLoop (ptr + size) (n - size) (u.advance iov rest size) m'
  else .ok (none, u, m)
termination_by n + u.uio_iov.length
decreasing_by
  · simp only [_hiov, List.length_cons]
    omega
  · simp only [Uio.advance, _hiov, List.length_cons]
    have hle : size ≤ n := by
      simp only [size]
      split <;> omega
    omega

/-- What the assertions ask of a transfer, for a process with the address space `curas`. -/
def SpaceRight (curas : Option S) (u : Uio S) : Prop :=
  if u.uio_segflg = .sysspace then u.uio_space = none else u.uio_space = curas

instance [DecidableEq S] (curas : Option S) (u : Uio S) : Decidable (SpaceRight curas u) :=
  inferInstanceAs (Decidable (if u.uio_segflg = .sysspace then u.uio_space = none else u.uio_space = curas))

def uiomove [DecidableEq S] (curas : Option S) (ptr n : ℕ) (u : Uio S) (m : Memory) : MoveResult S :=
  if SpaceRight curas u then moveLoop ptr n u m else .error .assertion

/-- The loop of `uiomovezeros`, sixteen zeros at a time. -/
def zerosLoop [DecidableEq S] (curas : Option S) (zeros n : ℕ) (u : Uio S) (m : Memory) : MoveResult S :=
  if n = 0 then .ok (none, u, m)
  else
    let amt := if n < 16 then n else 16
    match uiomove curas zeros amt u m with
    | .error stop => .error stop
    | .ok (some result, u', m') => .ok (some result, u', m')
    | .ok (none, u', m') => zerosLoop curas zeros (n - amt) u' m'
termination_by n
decreasing_by
  split <;> omega

/-- The zeros are a static array of the kernel's. -/
def uiomovezeros [DecidableEq S] (curas : Option S) (zeros n : ℕ) (u : Uio S) (m : Memory) : MoveResult S :=
  if u.uio_rw = .read then zerosLoop curas zeros n u m else .error .assertion

/-- The bytes that the blocks have room for. -/
def total (iov : List Iovec) : ℕ := (iov.map Iovec.iov_len).sum

/-- The address of every byte of the blocks, in order. -/
def positions (iov : List Iovec) : List ℕ :=
  iov.flatMap fun v => (List.range v.iov_len).map (v.iov_base + ·)

/-- A piece of the kernel's buffer and the place in a block that belongs to it. -/
structure Piece where
  ptr : ℕ
  base : ℕ
  size : ℕ
  deriving DecidableEq

/-- The pieces in which the blocks take `n` bytes from `ptr` on. -/
def pieces : (ptr n : ℕ) → List Iovec → List Piece
  | _, _, [] => []
  | ptr, n, iov::rest =>
    let size := if n < iov.iov_len then n else iov.iov_len
    if size = 0 then pieces ptr n rest
    else ⟨ptr, iov.iov_base, size⟩ :: pieces (ptr + size) (n - size) rest

def sizes (ps : List Piece) : ℕ := (ps.map Piece.size).sum

/-- A piece cannot be moved: its place is not all the process's, or some byte of it faults. -/
def Faulty (seg : Seg) (m : UserMemory) (p : Piece) : Prop :=
  seg ≠ .sysspace ∧ ¬(copycheck p.base p.size = some p.size ∧ ∀ j < p.size, m (p.base + j) ≠ none)

/-- The pieces go over one after the other. -/
def moveAll (seg : Seg) (rw : Rw) (ps : List Piece) (m : Memory) : Memory :=
  ps.foldl (fun m p => (transfer seg rw p.ptr p.base p.size m).2) m

inductive Cell where
  | kernel (a : ℕ)
  | user (a : ℕ)
  deriving DecidableEq

def Memory.byte (m : Memory) : Cell → Option UInt8
  | .kernel a => some (m.kernel a)
  | .user a => m.user a

/-- Where a byte comes from and where it goes, for its place in a block and in the buffer. -/
def way (seg : Seg) (rw : Rw) (x : ℕ × ℕ) : Cell × Cell :=
  let place := if seg = .sysspace then Cell.kernel x.1 else .user x.1
  match rw with
  | .read => (.kernel x.2, place)
  | .write => (place, .kernel x.2)

/-- The ways of the first bytes of the blocks, where the buffer starts at `ptr`. -/
def ways (u : Uio S) (ptr moved : ℕ) : List (Cell × Cell) :=
  (((positions u.uio_iov).take moved).zipIdx ptr).map (way u.uio_segflg u.uio_rw)

/-- Bytes have gone their ways, and every other one is as before. -/
def Copied {C β : Type} (l : List (C × C)) (f f' : C → β) : Prop :=
  (∀ x ∈ l, f' x.2 = f x.1) ∧ ∀ c, (∀ x ∈ l, c ≠ x.2) → f' c = f c

/-- No two ways end in one place, and none starts where another ends. -/
def Apart {C : Type} (l : List (C × C)) : Prop :=
  (l.map Prod.snd).Nodup ∧ ∀ x ∈ l, ∀ y ∈ l, x.1 ≠ y.2

/-- A transfer stands `moved` bytes further on, and its blocks still have room for the rest. -/
structure Accounted (u u' : Uio S) (moved : ℕ) : Prop where
  resid : moved + u'.uio_resid.toNat = u.uio_resid.toNat
  offset : u'.uio_offset = u.uio_offset + moved
  places : positions u'.uio_iov = (positions u.uio_iov).drop moved
  room : u'.uio_resid.toNat ≤ total u'.uio_iov
  same : (u'.uio_segflg, u'.uio_rw, u'.uio_space) = (u.uio_segflg, u.uio_rw, u.uio_space)

/-- All that a move of `n` bytes is meant to do, without a fault and at the first one. -/
def Right (ptr n : ℕ) (u : Uio S) (m : Memory) : MoveResult S → Prop
  | .error _ => False
  | .ok (none, u', m') =>
    let moved := min n u.uio_resid.toNat
    let ps := pieces ptr moved u.uio_iov
    (∀ p ∈ ps, ¬Faulty u.uio_segflg m.user p) ∧ Accounted u u' moved ∧
      m' = moveAll u.uio_segflg u.uio_rw ps m ∧ (Apart (ways u ptr moved) → Copied (ways u ptr moved) m.byte m'.byte)
  | .ok (some result, u', m') =>
    ∃ completed bad rest, pieces ptr n u.uio_iov = completed ++ bad::rest ∧
      (∀ p ∈ completed, ¬Faulty u.uio_segflg m.user p) ∧ Faulty u.uio_segflg m.user bad ∧ result = .efault ∧
      Accounted u u' (sizes completed) ∧
      m' = (transfer u.uio_segflg u.uio_rw bad.ptr bad.base bad.size
        (moveAll u.uio_segflg u.uio_rw completed m)).2

/-- What is left of the transfer ends where a block ends, unless it goes as far as the buffer. -/
def Fits (n : ℕ) (u : Uio S) : Prop :=
  n ≤ u.uio_resid.toNat ∨ ∃ k, total (u.uio_iov.take k) = u.uio_resid.toNat

/-- A round that starts within what is left of the transfer runs into a fault. -/
def FaultsWithin (ptr n : ℕ) (u : Uio S) (m : UserMemory) : Prop :=
  ∃ completed bad rest, pieces ptr n u.uio_iov = completed ++ bad::rest ∧
    sizes completed < u.uio_resid.toNat ∧ Faulty u.uio_segflg m bad

section Ways

variable {C β : Type} {l l' : List (C × C)} {f f' f'' : C → β}

/-- Ways that stay apart may be gone one list after the other. -/
theorem Copied.append (hl : Copied l f f') (hl' : Copied l' f' f'') (h : Apart (l ++ l')) : Copied (l ++ l') f f'' := by
  obtain ⟨hnodup, hapart⟩ := h
  rw [List.map_append, List.nodup_append] at hnodup
  constructor
  · intro x hx
    rcases List.mem_append.mp hx with hxl | hxl'
    · have hlast : ∀ y ∈ l', x.2 ≠ y.2 :=
        fun y hy => hnodup.2.2 x.2 (List.mem_map_of_mem hxl) y.2 (List.mem_map_of_mem hy)
      rw [hl'.2 x.2 hlast, hl.1 x hxl]
    · have hfirst : ∀ y ∈ l, x.1 ≠ y.2 :=
        fun y hy => hapart x (List.mem_append_right l hxl') y (List.mem_append_left l' hy)
      rw [hl'.1 x hxl', hl.2 x.1 hfirst]
  · intro c hc
    rw [hl'.2 c fun x hx => hc x (List.mem_append_right l hx), hl.2 c fun x hx => hc x (List.mem_append_left l' hx)]

theorem Apart.right (h : Apart (l ++ l')) : Apart l' := by
  obtain ⟨hnodup, hapart⟩ := h
  rw [List.map_append, List.nodup_append] at hnodup
  exact ⟨hnodup.2.1, fun x hx y hy => hapart x (List.mem_append_right l hx) y (List.mem_append_right l hy)⟩

end Ways

variable {u u' : Uio S} {m m' : Memory} {seg : Seg} {rw : Rw} {ptr base size n : ℕ} {iov : Iovec} {rest : List Iovec}

section Rounds

theorem advance_resid (h : size ≤ u.uio_resid.toNat) :
    (u.advance iov rest size).uio_resid.toNat = u.uio_resid.toNat - size := by
  have hsize : (UInt32.ofNat size).toNat = size := by
    rw [UInt32.toNat_ofNat']
    exact Nat.mod_eq_of_lt (Nat.lt_of_le_of_lt h u.uio_resid.toNat_lt)
  have hle : UInt32.ofNat size ≤ u.uio_resid := by
    rw [UInt32.le_iff_toNat_le, hsize]
    exact h
  rw [Uio.advance, UInt32.toNat_sub_of_le _ _ hle, hsize]

theorem copyin_none {m : UserMemory} {dest : Buffer} :
    (copyin m base size dest).1 = none ↔ copycheck base size = some size ∧ ∀ j < size, m (base + j) ≠ none := by
  unfold copyin
  rw [copyBlock_none, memcpy_ok_iff]
  refine and_congr_right fun _ => ⟨fun h j hj hnone => h j (Nat.zero_le j) (by omega) (.inl hnone), ?_⟩
  intro h j _ hj hfault
  rcases hfault with hnone | hfalse
  · exact h j (by omega) hnone
  · cases hfalse

theorem copyout_none {m : UserMemory} {src : Buffer} :
    (copyout src base size m).1 = none ↔ copycheck base size = some size ∧ ∀ j < size, m (base + j) ≠ none := by
  unfold copyout
  rw [copyBlock_none, memcpy_ok_iff]
  refine and_congr_right fun _ => ⟨fun h j hj hnone => h j (Nat.zero_le j) (by omega) (.inr (by simp [hnone])), ?_⟩
  intro h j _ hj hfault
  rcases hfault with hnone | hfalse
  · cases hnone
  · exact h j (by omega) (by simpa using hfalse)

/-- A round goes through unless its piece is faulty. -/
theorem transfer_none : (transfer seg rw ptr base size m).1 = none ↔ ¬Faulty seg m.user ⟨ptr, base, size⟩ := by
  cases seg <;> cases rw <;> simp [transfer, Faulty, copyin_none, copyout_none]

theorem copyBlock_error {β : Type} {copy : ℕ → Bool × β} {dest : β} {e : Errno}
    (h : (copyBlock base size copy dest).1 = some e) : e = .efault := by
  unfold copyBlock at h
  grind

theorem copyin_error {m : UserMemory} {dest : Buffer} {e : Errno} (h : (copyin m base size dest).1 = some e) :
    e = .efault :=
  copyBlock_error h

theorem copyout_error {m : UserMemory} {src : Buffer} {e : Errno} (h : (copyout src base size m).1 = some e) :
    e = .efault :=
  copyBlock_error h

theorem transfer_error {e : Errno} (h : (transfer seg rw ptr base size m).1 = some e) : e = .efault := by
  cases seg <;> cases rw
  case sysspace.read => cases h
  case sysspace.write => cases h
  case userispace.read | userspace.read => exact copyout_error h
  case userispace.write | userspace.write => exact copyin_error h

theorem transfer_faults {e : Errno} (h : (transfer seg rw ptr base size m).1 = some e) :
    Faulty seg m.user ⟨ptr, base, size⟩ := by
  by_contra hgood
  rw [transfer_none.mpr hgood] at h
  cases h

/-- A block is copied in byte for byte, and nothing beside it changes. -/
theorem memcpy_in {src : ℕ → Option UInt8} {d : Buffer} {i n : ℕ} (hr : ∀ j, i ≤ j → j < i+n → src j ≠ none) :
    ∃ d', memcpy src (fun _ => true) putIn i n d = (true, d') ∧
      (∀ j, i ≤ j → j < i+n → some (d' j) = src j) ∧ ∀ a, ¬(i ≤ a ∧ a < i+n) → d' a = d a := by
  induction n generalizing i d with
  | zero =>
    refine ⟨d, rfl, ?_, fun _ _ => rfl⟩
    intro j hij hj
    omega
  | succ n ih =>
    obtain ⟨b, hb⟩ := Option.ne_none_iff_exists'.mp (hr i (Nat.le_refl i) (by omega))
    obtain ⟨d', hcopy, hbytes, houtside⟩ := ih (i := i+1) (d := putIn i b d)
      (fun j hij hj => hr j (by omega) (by omega))
    have hw : (fun _ : ℕ => true) i = true := rfl
    refine ⟨d', ?_, ?_, ?_⟩
    · rw [memcpy_succ hb hw, hcopy]
    · intro j hij hj
      by_cases hji : j = i
      · rw [hji, houtside i (by omega), hb]
        simp [putIn]
      · exact hbytes j (by omega) (by omega)
    · intro a ha
      rw [houtside a (by omega)]
      exact update_of_ne (by omega) _ _

/-- The ways of the bytes of one piece. -/
def pieceWays (seg : Seg) (rw : Rw) (p : Piece) : List (Cell × Cell) :=
  (List.range p.size).map fun j => way seg rw (p.base + j, p.ptr + j)

theorem mem_pieceWays {p : Piece} {x : Cell × Cell} :
    x ∈ pieceWays seg rw p ↔ ∃ j < p.size, way seg rw (p.base + j, p.ptr + j) = x := by
  simp [pieceWays]

theorem memmove_copied (dst src : ℕ) (k : Buffer) :
    (∀ j < size, memmove dst src size k (dst + j) = k (src + j)) ∧
      ∀ a, (∀ j < size, a ≠ dst + j) → memmove dst src size k a = k a := by
  constructor
  · intro j hj
    rw [memmove, if_pos (by omega), Nat.add_sub_cancel_left]
  · intro a ha
    refine if_neg fun hin => ?_
    exact ha (a - dst) (by omega) (by omega)

theorem copyout_copied {m : UserMemory} {src : Buffer} (h : (copyout src base size m).1 = none) :
    (∀ j < size, (copyout src base size m).2 (base + j) = some (src j)) ∧
      ∀ a, (∀ j < size, a ≠ base + j) → (copyout src base size m).2 a = m a := by
  obtain ⟨_, hall⟩ := copyout_none.mp h
  obtain ⟨d', hcopy, hbytes, houtside⟩ := memcpy_out (m := m) (d := m) (i := 0) (n := size) src base
    fun j _ hj => hall j (by omega)
  have hdest : (copyout src base size m).2 = d' := (copyBlock_dest h).trans (congrArg Prod.snd hcopy)
  rw [hdest]
  constructor
  · intro j hj
    exact hbytes j (Nat.zero_le j) (by omega)
  · intro a ha
    refine houtside a fun hin => ?_
    exact ha (a - base) (by omega) (by omega)

theorem copyin_copied {m : UserMemory} {dest k : Buffer} (h : (copyin m base size dest).1 = none)
    (hdest : ∀ i, dest i = k (ptr + i)) :
    (∀ j < size, some (putBack ptr (copyin m base size dest).2 k (ptr + j)) = m (base + j)) ∧
      ∀ a, (∀ j < size, a ≠ ptr + j) → putBack ptr (copyin m base size dest).2 k a = k a := by
  obtain ⟨_, hall⟩ := copyin_none.mp h
  have hr : ∀ j, 0 ≤ j → j < 0 + size → (fun j => m (base + j)) j ≠ none := fun j _ hj => hall j (by omega)
  obtain ⟨d', hcopy, hbytes, houtside⟩ := memcpy_in (d := dest) hr
  have hb : (copyin m base size dest).2 = d' := (copyBlock_dest h).trans (congrArg Prod.snd hcopy)
  rw [hb]
  constructor
  · intro j hj
    rw [putBack, if_pos (Nat.le_add_right ptr j), Nat.add_sub_cancel_left]
    exact hbytes j (Nat.zero_le j) (by omega)
  · intro a ha
    unfold putBack
    split_ifs with hptr
    · rw [houtside (a - ptr) fun hin => ha (a - ptr) (by omega) (by omega), hdest, Nat.add_sub_cancel' hptr]
    · rfl

/-- The bytes of a piece that is not faulty go their ways. -/
theorem transfer_copied {p : Piece} (h : ¬Faulty seg m.user p) :
    Copied (pieceWays seg rw p) m.byte (transfer seg rw p.ptr p.base p.size m).2.byte := by
  have hnone : (transfer seg rw p.ptr p.base p.size m).1 = none := transfer_none.mpr h
  constructor
  · intro x hx
    obtain ⟨j, hj, rfl⟩ := mem_pieceWays.mp hx
    cases seg <;> cases rw
    case sysspace.read => exact congrArg some ((memmove_copied p.base p.ptr m.kernel).1 j hj)
    case sysspace.write => exact congrArg some ((memmove_copied p.ptr p.base m.kernel).1 j hj)
    case userispace.read | userspace.read => exact (copyout_copied hnone).1 j hj
    case userispace.write | userspace.write => exact (copyin_copied hnone fun _ => rfl).1 j hj
  · intro c hc
    have hends : ∀ j < p.size, c ≠ (way seg rw (p.base + j, p.ptr + j)).2 :=
      fun j hj => hc _ (mem_pieceWays.mpr ⟨j, hj, rfl⟩)
    cases seg <;> cases rw <;> cases c
    case sysspace.read.kernel a =>
      exact congrArg some ((memmove_copied p.base p.ptr m.kernel).2 a fun j hj ha => hends j hj (congrArg _ ha))
    case sysspace.write.kernel a =>
      exact congrArg some ((memmove_copied p.ptr p.base m.kernel).2 a fun j hj ha => hends j hj (congrArg _ ha))
    case userispace.read.user a | userspace.read.user a =>
      exact (copyout_copied hnone).2 a fun j hj ha => hends j hj (congrArg _ ha)
    case userispace.write.kernel a | userspace.write.kernel a =>
      exact congrArg some ((copyin_copied hnone fun _ => rfl).2 a fun j hj ha => hends j hj (congrArg _ ha))
    all_goals rfl

/-- What is mapped stays mapped, and nothing else gets to be. -/
theorem transfer_mapped {p : Piece} (h : ¬Faulty seg m.user p) (a : ℕ) :
    (transfer seg rw p.ptr p.base p.size m).2.user a = none ↔ m.user a = none := by
  have hnone : (transfer seg rw p.ptr p.base p.size m).1 = none := transfer_none.mpr h
  cases seg <;> cases rw
  case userispace.read | userspace.read =>
    obtain ⟨hbytes, houtside⟩ := copyout_copied hnone
    by_cases ha : ∃ j < p.size, a = p.base + j
    · obtain ⟨j, hj, rfl⟩ := ha
      have hmapped : m.user (p.base + j) ≠ none := (copyout_none.mp hnone).2 j hj
      exact iff_of_false (Option.ne_none_iff_exists'.mpr ⟨_, hbytes j hj⟩) hmapped
    · simp only [not_exists, not_and] at ha
      exact iff_of_eq (congrArg (· = none) (houtside a ha))
  all_goals rfl

theorem transfer_faulty {p p' : Piece} (h : ¬Faulty seg m.user p) :
    Faulty seg (transfer seg rw p.ptr p.base p.size m).2.user p' ↔ Faulty seg m.user p' := by
  simp only [Faulty, ne_eq, transfer_mapped h]

end Rounds

section Pieces

variable {iovs : List Iovec} {k : ℕ}

theorem pieces_empty (h : iov.iov_len = 0) : pieces ptr n (iov::rest) = pieces ptr n rest := by
  simp [pieces, h]

theorem pieces_zero : pieces ptr 0 iovs = [] := by
  induction iovs with
  | nil => rfl
  | cons iov rest ih => simp [pieces, ih]

/-- A first piece is taken off the first block and the buffer. -/
theorem pieces_cons (hsize : size = if n < iov.iov_len then n else iov.iov_len) (h : size ≠ 0) :
    pieces ptr n (iov::rest) =
      ⟨ptr, iov.iov_base, size⟩ :: pieces (ptr + size) (n - size) (⟨iov.iov_base + size, iov.iov_len - size⟩::rest) := by
  have hleft : (if n - size < iov.iov_len - size then n - size else iov.iov_len - size) = 0 := by
    split at hsize <;> split <;> omega
  conv_lhs => rw [pieces]
  conv_rhs => rw [pieces]
  simp only [← hsize, h, if_false, hleft, if_true]

theorem positions_advance (h : size ≤ iov.iov_len) :
    positions (⟨iov.iov_base + size, iov.iov_len - size⟩::rest) = (positions (iov::rest)).drop size := by
  have hlen : iov.iov_len = size + (iov.iov_len - size) := by omega
  have hrange : (List.range iov.iov_len).drop size = (List.range (iov.iov_len - size)).map (size + ·) := by
    conv_lhs => rw [hlen, List.range_add]
    exact List.drop_left' List.length_range
  simp only [positions, List.flatMap_cons]
  rw [List.drop_append_of_le_length (by simpa using h), ← List.map_drop, hrange, List.map_map]
  simp only [Function.comp_def, Nat.add_assoc]

theorem length_positions : (positions iovs).length = total iovs := by
  simp [positions, total, List.length_flatMap]

theorem zipIdx_block (base ptr k : ℕ) :
    ((List.range k).map (base + ·)).zipIdx ptr = (List.range k).map fun j => (base + j, ptr + j) := by
  apply List.ext_getElem
  · simp
  · intro j _ _
    simp

/-- The pieces hold the first bytes of the blocks, in order. -/
theorem pieces_positions : ((pieces ptr n iovs).flatMap fun p => (List.range p.size).map fun j => (p.base + j, p.ptr + j)) =
    ((positions iovs).take n).zipIdx ptr := by
  induction iovs generalizing ptr n with
  | nil => simp [pieces, positions]
  | cons iov rest ih =>
    obtain ⟨size, hsize⟩ : ∃ size, size = if n < iov.iov_len then n else iov.iov_len := ⟨_, rfl⟩
    have hmin : size = min n iov.iov_len := by split at hsize <;> omega
    have hleft : n - iov.iov_len = n - size := by omega
    have hfirst : ((List.range iov.iov_len).map (iov.iov_base + ·)).take n = (List.range size).map (iov.iov_base + ·) := by
      rw [← List.map_take, List.take_range, hmin]
    have hsplit : (positions (iov::rest)).take n =
        (List.range size).map (iov.iov_base + ·) ++ (positions rest).take (n - size) := by
      rw [← hleft, ← hfirst]
      simp [positions, List.take_append]
    rw [hsplit, List.zipIdx_append, zipIdx_block, List.length_map, List.length_range, pieces]
    simp only [← hsize]
    by_cases hzero : size = 0
    · rw [if_pos hzero, ih, hzero]
      rfl
    · rw [if_neg hzero, List.flatMap_cons, ih]

theorem pieces_ways (u : Uio S) :
    (pieces ptr n u.uio_iov).flatMap (pieceWays u.uio_segflg u.uio_rw) = ways u ptr n := by
  rw [ways, ← pieces_positions, List.map_flatMap]
  simp only [List.map_map]
  rfl

theorem moveAll_cons (p : Piece) (ps : List Piece) :
    moveAll seg rw (p::ps) m = moveAll seg rw ps (transfer seg rw p.ptr p.base p.size m).2 := rfl

theorem moveAll_copied {ps : List Piece} (hgood : ∀ p ∈ ps, ¬Faulty seg m.user p) (hapart : Apart (ps.flatMap (pieceWays seg rw))) :
    Copied (ps.flatMap (pieceWays seg rw)) m.byte (moveAll seg rw ps m).byte := by
  induction ps generalizing m with
  | nil => exact ⟨fun x hx => absurd hx List.not_mem_nil, fun _ _ => rfl⟩
  | cons p ps ih =>
    obtain ⟨hp, hps⟩ := List.forall_mem_cons.mp hgood
    rw [List.flatMap_cons] at hapart ⊢
    have hnext : ∀ q ∈ ps, ¬Faulty seg (transfer seg rw p.ptr p.base p.size m).2.user q :=
      fun q hq => (transfer_faulty hp).not.mpr (hps q hq)
    exact (transfer_copied hp).append (ih hnext hapart.right) hapart

end Pieces

section Loop

theorem Accounted.refl (h : u.uio_resid.toNat ≤ total u.uio_iov) : Accounted u u 0 :=
  ⟨Nat.zero_add _, (Int.add_zero _).symm, rfl, h, rfl⟩

/-- A round of the loop is accounted for together with what comes after it. -/
theorem Accounted.step {moved : ℕ} (hiov : u.uio_iov = iov::rest) (hlen : size ≤ iov.iov_len)
    (hresid : size ≤ u.uio_resid.toNat) (h : Accounted (u.advance iov rest size) u' moved) :
    Accounted u u' (size + moved) := by
  constructor
  · have hleft := h.resid
    rw [advance_resid hresid] at hleft
    omega
  · rw [h.offset, Int.natCast_add, ← Int.add_assoc]
    rfl
  · rw [h.places, Uio.advance, positions_advance hlen, List.drop_drop, hiov]
  · exact h.room
  · exact h.same

theorem right_skip {r : MoveResult S} (hiov : u.uio_iov = iov::rest) (hlen : iov.iov_len = 0)
    (h : Right ptr n { u with uio_iov := rest } m r) : Right ptr n u m r := by
  have hpieces : ∀ k, pieces ptr k u.uio_iov = pieces ptr k rest := by
    intro k
    rw [hiov, pieces_empty hlen]
  have hplaces : positions u.uio_iov = positions rest := by
    rw [hiov]
    simp [positions, hlen]
  have hacc : ∀ {u'} {moved : ℕ}, Accounted { u with uio_iov := rest } u' moved → Accounted u u' moved :=
    fun h => ⟨h.resid, h.offset, h.places.trans (by rw [hplaces]), h.room, h.same⟩
  have hways : ∀ k, ways u ptr k = ways { u with uio_iov := rest } ptr k := by
    intro k
    simp only [ways, hplaces]
  match r, h with
  | .ok (none, u', m'), ⟨hgood, ha, hm, hbytes⟩ =>
    simp only [Right, hpieces, hways]
    exact ⟨hgood, hacc ha, hm, hbytes⟩
  | .ok (some e, u', m'), ⟨completed, bad, rest', hsplit, hgood, hbad, he, ha, hm⟩ =>
    exact ⟨completed, bad, rest', (hpieces n).trans hsplit, hgood, hbad, he, hacc ha, hm⟩

/-- A round within what is left, and a right outcome of the rest. -/
theorem right_step {r : MoveResult S} (hiov : u.uio_iov = iov::rest)
    (hsize : size = if n < iov.iov_len then n else iov.iov_len) (hpos : size ≠ 0)
    (hresid : size ≤ u.uio_resid.toNat) (hgood : ¬Faulty u.uio_segflg m.user ⟨ptr, iov.iov_base, size⟩)
    (h : Right (ptr + size) (n - size) (u.advance iov rest size)
      (transfer u.uio_segflg u.uio_rw ptr iov.iov_base size m).2 r) : Right ptr n u m r := by
  have hlen : size ≤ iov.iov_len := by split at hsize <;> omega
  have hfaulty : ∀ p, Faulty u.uio_segflg (transfer u.uio_segflg u.uio_rw ptr iov.iov_base size m).2.user p ↔
      Faulty u.uio_segflg m.user p := fun p => transfer_faulty hgood
  match r, h with
  | .ok (none, u', m'), ⟨hgood', hacc, hm, _⟩ =>
    have hmoved : min n u.uio_resid.toNat = size + min (n - size) (u.advance iov rest size).uio_resid.toNat := by
      rw [advance_resid hresid]
      split at hsize <;> omega
    have hcut : size = if min n u.uio_resid.toNat < iov.iov_len then min n u.uio_resid.toNat else iov.iov_len := by
      split at hsize <;> split <;> omega
    have hpieces : pieces ptr (min n u.uio_resid.toNat) u.uio_iov = ⟨ptr, iov.iov_base, size⟩ ::
        pieces (ptr + size) (min (n - size) (u.advance iov rest size).uio_resid.toNat)
          (u.advance iov rest size).uio_iov := by
      rw [hiov, pieces_cons hcut hpos, hmoved, Nat.add_sub_cancel_left]
      rfl
    have hall : ∀ p ∈ pieces ptr (min n u.uio_resid.toNat) u.uio_iov, ¬Faulty u.uio_segflg m.user p := by
      rw [hpieces, List.forall_mem_cons]
      exact ⟨hgood, fun p hp => (hfaulty p).not.mp (hgood' p hp)⟩
    have hmem : m' = moveAll u.uio_segflg u.uio_rw (pieces ptr (min n u.uio_resid.toNat) u.uio_iov) m := by
      rw [hpieces, moveAll_cons]
      exact hm
    refine ⟨hall, ?_, hmem, fun hapart => ?_⟩
    · rw [hmoved]
      exact hacc.step hiov hlen hresid
    · rw [hmem]
      rw [← pieces_ways] at hapart ⊢
      exact moveAll_copied hall hapart
  | .ok (some e, u', m'), ⟨completed, bad, rest', hsplit, hgood', hbad, he, hacc, hm⟩ =>
    refine ⟨⟨ptr, iov.iov_base, size⟩ :: completed, bad, rest', ?_, ?_, (hfaulty bad).mp hbad, he,
      hacc.step hiov hlen hresid, hm⟩
    · rw [hiov, pieces_cons hsize hpos, List.cons_append, ← hsplit]
      rfl
    · rw [List.forall_mem_cons]
      exact ⟨hgood, fun p hp => (hfaulty p).not.mp (hgood' p hp)⟩

theorem total_cons : total (iov::rest) = iov.iov_len + total rest := by simp [total]

/-- What may stop a move from going too far is still there after an empty block. -/
theorem met_skip (hiov : u.uio_iov = iov::rest) (hlen : iov.iov_len = 0) :
    (Fits n u ∨ FaultsWithin ptr n u m.user) ↔
      Fits n { u with uio_iov := rest } ∨ FaultsWithin ptr n { u with uio_iov := rest } m.user := by
  have hpieces : pieces ptr n u.uio_iov = pieces ptr n rest := by rw [hiov, pieces_empty hlen]
  have hends : (∃ k, total (u.uio_iov.take k) = u.uio_resid.toNat) ↔ ∃ k, total (rest.take k) = u.uio_resid.toNat := by
    rw [hiov]
    constructor
    · rintro ⟨k, hk⟩
      cases k with
      | zero => exact ⟨0, hk⟩
      | succ k =>
        rw [List.take_succ_cons, total_cons, hlen, Nat.zero_add] at hk
        exact ⟨k, hk⟩
    · rintro ⟨k, hk⟩
      refine ⟨k+1, ?_⟩
      rw [List.take_succ_cons, total_cons, hlen, Nat.zero_add, hk]
  simp only [Fits, FaultsWithin, hpieces, hends]

/-- A round that is not faulty stays within what is left, and so does the rest. -/
theorem met_advance (hiov : u.uio_iov = iov::rest) (hsize : size = if n < iov.iov_len then n else iov.iov_len)
    (hpos : size ≠ 0) (hresid : 0 < u.uio_resid.toNat) (hgood : ¬Faulty u.uio_segflg m.user ⟨ptr, iov.iov_base, size⟩)
    (h : Fits n u ∨ FaultsWithin ptr n u m.user) :
    size ≤ u.uio_resid.toNat ∧ (Fits (n - size) (u.advance iov rest size) ∨
      FaultsWithin (ptr + size) (n - size) (u.advance iov rest size)
        (transfer u.uio_segflg u.uio_rw ptr iov.iov_base size m).2.user) := by
  have hmin : size = min n iov.iov_len := by split at hsize <;> omega
  rcases h with (hle | ⟨k, hk⟩) | ⟨completed, bad, rest', hsplit, hwithin, hbad⟩
  · have hin : size ≤ u.uio_resid.toNat := by omega
    refine ⟨hin, .inl (.inl ?_)⟩
    rw [advance_resid hin]
    omega
  · rw [hiov] at hk
    cases k with
    | zero => exact absurd hk (Nat.ne_of_lt hresid)
    | succ k =>
      rw [List.take_succ_cons, total_cons] at hk
      have hin : size ≤ u.uio_resid.toNat := by omega
      refine ⟨hin, .inl (.inr ⟨k+1, ?_⟩)⟩
      rw [advance_resid hin, Uio.advance, List.take_succ_cons, total_cons]
      simp only
      omega
  · rw [hiov, pieces_cons hsize hpos] at hsplit
    rcases List.append_eq_cons_iff.mp hsplit.symm with ⟨rfl, hhead⟩ | ⟨completed', rfl, htail⟩
    · rw [List.cons.injEq] at hhead
      rw [hhead.1] at hbad
      exact absurd hbad hgood
    · have hin : size + sizes completed' < u.uio_resid.toNat := by simpa [sizes] using hwithin
      refine ⟨by omega, .inr ⟨completed', bad, rest', htail, ?_, (transfer_faulty hgood).mpr hbad⟩⟩
      rw [advance_resid (by omega)]
      omega

/-- What is met after a round within what is left was met before it. -/
theorem met_of_advance (hiov : u.uio_iov = iov::rest) (hsize : size = if n < iov.iov_len then n else iov.iov_len)
    (hpos : size ≠ 0) (hin : size ≤ u.uio_resid.toNat) (hgood : ¬Faulty u.uio_segflg m.user ⟨ptr, iov.iov_base, size⟩)
    (h : Fits (n - size) (u.advance iov rest size) ∨ FaultsWithin (ptr + size) (n - size) (u.advance iov rest size)
        (transfer u.uio_segflg u.uio_rw ptr iov.iov_base size m).2.user) :
    Fits n u ∨ FaultsWithin ptr n u m.user := by
  have hmin : size = min n iov.iov_len := by split at hsize <;> omega
  have hend : iov.iov_len = u.uio_resid.toNat → Fits n u := by
    intro hlen
    refine .inr ⟨1, ?_⟩
    rw [hiov, List.take_succ_cons, total_cons, List.take_zero, hlen]
    rfl
  rcases h with (hle | ⟨k, hk⟩) | ⟨completed, bad, rest', hsplit, hwithin, hbad⟩
  · rw [advance_resid hin] at hle
    exact .inl (.inl (by omega))
  · rw [advance_resid hin] at hk
    cases k with
    | zero =>
      have hsum : u.uio_resid.toNat = size := Nat.le_antisymm (Nat.sub_eq_zero_iff_le.mp hk.symm) hin
      by_cases hn : n ≤ u.uio_resid.toNat
      · exact .inl (.inl hn)
      · exact .inl (hend (by omega))
    | succ k =>
      rw [Uio.advance, List.take_succ_cons, total_cons] at hk
      simp only at hk
      refine .inl (.inr ⟨k+1, ?_⟩)
      rw [hiov, List.take_succ_cons, total_cons]
      omega
  · rw [advance_resid hin] at hwithin
    refine .inr ⟨⟨ptr, iov.iov_base, size⟩ :: completed, bad, rest', ?_, ?_, (transfer_faulty hgood).mp hbad⟩
    · rw [hiov, pieces_cons hsize hpos, List.cons_append, ← hsplit]
      rfl
    · simp only [sizes, List.map_cons, List.sum_cons] at hwithin ⊢
      omega

/-- A round without a byte finds an empty block. -/
theorem round_empty (hn : 0 < n) (h : (if n < iov.iov_len then n else iov.iov_len) = 0) : iov.iov_len = 0 := by
  split at h <;> omega

/-- The loop does not panic, and what it does is right, where it does not go past the end. -/
theorem moveLoop_right (hsum : u.uio_resid.toNat ≤ total u.uio_iov) (h : Fits n u ∨ FaultsWithin ptr n u m.user) :
    Right ptr n u m (moveLoop ptr n u m) := by
  fun_induction moveLoop ptr n u m with
  | case1 ptr n u m hcond hiov =>
    have hnone : total u.uio_iov = 0 := by rw [hiov]; rfl
    have hpos : 0 < u.uio_resid.toNat := UInt32.lt_iff_toNat_lt.mp hcond.2
    omega
  | case2 ptr n u m hcond iov rest hiov size hsize hrest =>
    have hlen : iov.iov_len = 0 := round_empty hcond.1 hsize
    have hnone : total u.uio_iov = 0 := by
      rw [hiov, List.eq_nil_of_length_eq_zero hrest, total_cons, hlen]
      rfl
    have hpos : 0 < u.uio_resid.toNat := UInt32.lt_iff_toNat_lt.mp hcond.2
    omega
  | case3 ptr n u m hcond iov rest hiov size hsize hrest ih =>
    have hlen : iov.iov_len = 0 := round_empty hcond.1 hsize
    rw [hiov, total_cons, hlen, Nat.zero_add] at hsum
    exact right_skip hiov hlen (ih hsum ((met_skip hiov hlen).mp h))
  | case4 ptr n u m hcond iov rest hiov size hsize e m' htransfer =>
    have herr : (transfer u.uio_segflg u.uio_rw ptr iov.iov_base size m).1 = some e := congrArg Prod.fst htransfer
    have hfaulty : Faulty u.uio_segflg m.user ⟨ptr, iov.iov_base, size⟩ := transfer_faults herr
    refine ⟨[], ⟨ptr, iov.iov_base, size⟩, pieces (ptr + size) (n - size) rest, ?_, by simp, hfaulty,
      transfer_error herr, .refl hsum, (congrArg Prod.snd htransfer).symm⟩
    rw [hiov, pieces]
    exact if_neg hsize
  | case5 ptr n u m hcond iov rest hiov size hsize m' htransfer ih =>
    have hgood : ¬Faulty u.uio_segflg m.user ⟨ptr, iov.iov_base, size⟩ :=
      transfer_none.mp (congrArg Prod.fst htransfer)
    have hm' : (transfer u.uio_segflg u.uio_rw ptr iov.iov_base size m).2 = m' := congrArg Prod.snd htransfer
    have hround : size = if n < iov.iov_len then n else iov.iov_len := rfl
    obtain ⟨hin, hmet⟩ := met_advance hiov hround hsize (UInt32.lt_iff_toNat_lt.mp hcond.2) hgood h
    rw [hiov, total_cons] at hsum
    have hroom : (u.advance iov rest size).uio_resid.toNat ≤ total (u.advance iov rest size).uio_iov := by
      rw [advance_resid hin, Uio.advance, total_cons]
      simp only
      omega
    rw [hm'] at hmet
    refine right_step hiov hround hsize hin hgood ?_
    rw [hm']
    exact ih hroom hmet
  | case6 ptr n u m hcond =>
    have hzero : min n u.uio_resid.toNat = 0 := by
      have hresid : 0 < u.uio_resid ↔ 0 < u.uio_resid.toNat := UInt32.lt_iff_toNat_lt
      rw [hresid] at hcond
      omega
    simp only [Right, hzero, pieces_zero, ways, List.take_zero]
    exact ⟨by simp, .refl hsum, rfl, fun _ => ⟨by simp, fun _ _ => rfl⟩⟩

/-- The offset only grows. -/
theorem offset_le {e : Option Errno} (h : moveLoop ptr n u m = .ok (e, u', m')) : u.uio_offset ≤ u'.uio_offset := by
  fun_induction moveLoop ptr n u m with
  | case1 => cases h
  | case2 => cases h
  | case3 ptr n u m hcond iov rest hiov size hsize hrest ih => exact ih h
  | case4 ptr n u m hcond iov rest hiov size hsize e m' htransfer =>
    cases h
    exact Int.le_refl _
  | case5 ptr n u m hcond iov rest hiov size hsize m' htransfer ih =>
    have hround : u.uio_offset ≤ (u.advance iov rest size).uio_offset := by
      simp only [Uio.advance]
      omega
    exact Int.le_trans hround (ih h)
  | case6 ptr n u m hcond =>
    cases h
    exact Int.le_refl _

/-- Where nothing stops it, the loop goes past the end, if it returns at all. -/
theorem moveLoop_past (h : ¬(Fits n u ∨ FaultsWithin ptr n u m.user)) {e : Option Errno}
    (hr : moveLoop ptr n u m = .ok (e, u', m')) : u.uio_offset + u.uio_resid.toNat < u'.uio_offset := by
  fun_induction moveLoop ptr n u m with
  | case1 => cases hr
  | case2 => cases hr
  | case3 ptr n u m hcond iov rest hiov size hsize hrest ih =>
    have hlen : iov.iov_len = 0 := round_empty hcond.1 hsize
    exact ih ((met_skip hiov hlen).not.mp h) hr
  | case4 ptr n u m hcond iov rest hiov size hsize e m' htransfer =>
    have herr : (transfer u.uio_segflg u.uio_rw ptr iov.iov_base size m).1 = some e := congrArg Prod.fst htransfer
    have hfaulty : Faulty u.uio_segflg m.user ⟨ptr, iov.iov_base, size⟩ := transfer_faults herr
    have hwithin : FaultsWithin ptr n u m.user := by
      refine ⟨[], ⟨ptr, iov.iov_base, size⟩, pieces (ptr + size) (n - size) rest, ?_,
        UInt32.lt_iff_toNat_lt.mp hcond.2, hfaulty⟩
      rw [hiov, pieces]
      exact if_neg hsize
    exact absurd (.inr hwithin) h
  | case5 ptr n u m hcond iov rest hiov size hsize m' htransfer ih =>
    have hgood : ¬Faulty u.uio_segflg m.user ⟨ptr, iov.iov_base, size⟩ :=
      transfer_none.mp (congrArg Prod.fst htransfer)
    have hm' : (transfer u.uio_segflg u.uio_rw ptr iov.iov_base size m).2 = m' := congrArg Prod.snd htransfer
    have hoffset : (u.advance iov rest size).uio_offset = u.uio_offset + size := rfl
    by_cases hin : size ≤ u.uio_resid.toNat
    · have hnot : ¬(Fits (n - size) (u.advance iov rest size) ∨
          FaultsWithin (ptr + size) (n - size) (u.advance iov rest size) m'.user) := by
        intro hmet
        rw [← hm'] at hmet
        have hround : size = if n < iov.iov_len then n else iov.iov_len := rfl
        exact h (met_of_advance hiov hround hsize hin hgood hmet)
      have hlater := ih hnot hr
      rw [hoffset, advance_resid hin] at hlater
      omega
    · have hlater := offset_le hr
      rw [hoffset] at hlater
      omega
  | case6 ptr n u m hcond =>
    rw [UInt32.lt_iff_toNat_lt] at hcond
    have hfits : Fits n u := by
      by_cases hn : n ≤ u.uio_resid.toNat
      · exact .inl hn
      · have hzero : u.uio_resid.toNat = 0 := by
          have h0 : (0 : UInt32).toNat = 0 := rfl
          omega
        exact .inr ⟨0, hzero.symm⟩
    exact absurd (.inl hfits) h

end Loop

/-- A right outcome accounts for the bytes moved, which are all of them unless there is a fault. -/
theorem accounted_of_right {r : MoveResult S} (h : Right ptr n u m r) :
    ∃ e u' m' moved, r = .ok (e, u', m') ∧ Accounted u u' moved ∧ (e = none → moved = min n u.uio_resid.toNat) ∧
      ∀ result, e = some result → result = .efault := by
  match r, h with
  | .ok (none, u', m'), ⟨_, hacc, _, _⟩ => exact ⟨none, u', m', _, rfl, hacc, fun _ => rfl, by simp⟩
  | .ok (some e, u', m'), ⟨completed, _, _, _, _, _, he, hacc, _⟩ =>
    exact ⟨some e, u', m', _, rfl, hacc, by simp, by simp [he]⟩

theorem Accounted.trans {u'' : Uio S} {moved moved' : ℕ} (h : Accounted u u' moved) (h' : Accounted u' u'' moved') :
    Accounted u u'' (moved + moved') := by
  constructor
  · have hresid := h.resid
    have hresid' := h'.resid
    omega
  · rw [h'.offset, h.offset, Int.natCast_add, Int.add_assoc]
  · rw [h'.places, h.places, List.drop_drop]
  · exact h'.room
  · exact h'.same.trans h.same

variable {curas : Option S}

/-- The assertions still hold of a transfer that has gone on. -/
theorem Accounted.space {moved : ℕ} (h : Accounted u u' moved) (hspace : SpaceRight curas u) : SpaceRight curas u' := by
  have hsame := h.same
  simp only [Prod.mk.injEq] at hsame
  rw [SpaceRight, hsame.1, hsame.2.2]
  exact hspace

variable [DecidableEq S]

/-- A buffer that is not longer than the transfer is moved as a whole, if no fault keeps it from that. -/
theorem uiomove_fits (ptr : ℕ) (m : Memory) (hspace : SpaceRight curas u) (hsum : u.uio_resid.toNat ≤ total u.uio_iov)
    (hn : n ≤ u.uio_resid.toNat) : ∃ e u' m' moved, uiomove curas ptr n u m = .ok (e, u', m') ∧ Accounted u u' moved ∧
      (e = none → moved = n) ∧ ∀ result, e = some result → result = .efault := by
  have hright : Right ptr n u m (moveLoop ptr n u m) := moveLoop_right hsum (.inl (.inl hn))
  obtain ⟨e, u', m', moved, hr, hacc, hall, herr⟩ := accounted_of_right hright
  rw [Nat.min_eq_left hn] at hall
  exact ⟨e, u', m', moved, by rw [uiomove, if_pos hspace, hr], hacc, hall, herr⟩

/-- Zeros that fit into the transfer all get there, if no fault keeps them from it. -/
theorem uiomovezeros_right (zeros n : ℕ) (u : Uio S) (m : Memory) (hspace : SpaceRight curas u) (hrw : u.uio_rw = .read)
    (hsum : u.uio_resid.toNat ≤ total u.uio_iov) (hn : n ≤ u.uio_resid.toNat) :
    ∃ e u' m' moved, uiomovezeros curas zeros n u m = .ok (e, u', m') ∧ Accounted u u' moved ∧
      (e = none → moved = n) ∧ ∀ result, e = some result → result = .efault := by
  rw [uiomovezeros, if_pos hrw]
  clear hrw
  fun_induction zerosLoop curas zeros n u m with
  | case1 u m => exact ⟨none, u, m, 0, rfl, .refl hsum, fun _ => rfl, by simp⟩
  | case2 n u m hpos amt stop hmove =>
    have hamt : amt ≤ n := by simp only [amt]; split <;> omega
    obtain ⟨e, v, m', moved, hr, _⟩ := uiomove_fits zeros m hspace hsum (Nat.le_trans hamt hn)
    rw [hr] at hmove
    cases hmove
  | case3 n u m hpos amt result u' m' hmove =>
    have hamt : amt ≤ n := by simp only [amt]; split <;> omega
    obtain ⟨e, v, m'', moved, hr, hacc, _, herr⟩ := uiomove_fits zeros m hspace hsum (Nat.le_trans hamt hn)
    rw [hr] at hmove
    cases hmove
    exact ⟨some result, u', m', moved, rfl, hacc, by simp, herr⟩
  | case4 n u m hpos amt u' m' hmove ih =>
    have hamt : amt ≤ n := by simp only [amt]; split <;> omega
    obtain ⟨e, v, m'', moved, hr, hacc, hall, _⟩ := uiomove_fits zeros m hspace hsum (Nat.le_trans hamt hn)
    rw [hr] at hmove
    cases hmove
    have hmoved : moved = amt := hall rfl
    have hresid := hacc.resid
    obtain ⟨e', u'', m'', moved', hrest, hacc', hall', herr⟩ := ih (hacc.space hspace) hacc.room (by omega)
    refine ⟨e', u'', m'', moved + moved', hrest, hacc.trans hacc', fun hnone => ?_, herr⟩
    rw [hall' hnone]
    omega

/-- A move is right exactly if it ends with a block or within the transfer, or a fault ends it in time. -/
theorem uiomove_right_iff (ptr n : ℕ) (u : Uio S) (m : Memory) (hspace : SpaceRight curas u)
    (hsum : u.uio_resid.toNat ≤ total u.uio_iov) :
    Right ptr n u m (uiomove curas ptr n u m) ↔ Fits n u ∨ FaultsWithin ptr n u m.user := by
  rw [uiomove, if_pos hspace]
  constructor
  · intro hright
    obtain ⟨e, u', m', moved, hr, hacc, _, _⟩ := accounted_of_right hright
    by_contra hnot
    have hpast := moveLoop_past hnot hr
    have hresid := hacc.resid
    have hoffset := hacc.offset
    omega
  · exact moveLoop_right hsum

/-- Three blocks of a process, the second of them empty. -/
def threeBlocks : Uio ℕ := ⟨[⟨0x1000, 4⟩, ⟨0x2000, 0⟩, ⟨0x3000, 6⟩], 0, 10, .userspace, .read, some 1⟩

def emptyMemory : Memory := ⟨fun _ => 0, fun _ => none⟩

theorem threeBlocks_right_iff : Right 0x80001000 10 threeBlocks emptyMemory
      (uiomove (some 1) 0x80001000 10 threeBlocks emptyMemory) ↔
    Fits 10 threeBlocks ∨ FaultsWithin 0x80001000 10 threeBlocks emptyMemory.user :=
  uiomove_right_iff 0x80001000 10 threeBlocks emptyMemory (by decide) (by decide)

/-- A block of two bytes, of which one is still to be transferred. -/
def lastByte : Uio ℕ := ⟨[⟨0x80002000, 2⟩], 0, 1, .sysspace, .read, none⟩

/-- The transfer of `lastByte` after a move of two bytes. -/
def pastLastByte : Uio ℕ := ⟨[⟨0x80002002, 0⟩], 2, 4294967295, .sysspace, .read, none⟩

/-- Two bytes are moved, and there are more to come than there ever were. -/
theorem lastByte_past :
    SpaceRight (some 1) lastByte ∧ lastByte.uio_resid.toNat ≤ total lastByte.uio_iov ∧
      (∃ m', uiomove (some 1) 0x80001000 2 lastByte emptyMemory = .ok (none, pastLastByte, m')) ∧
      ¬Right 0x80001000 2 lastByte emptyMemory (uiomove (some 1) 0x80001000 2 lastByte emptyMemory) := by
  have hspace : SpaceRight (some 1) lastByte := by decide
  obtain ⟨m', hrun⟩ : ∃ m', uiomove (some 1) 0x80001000 2 lastByte emptyMemory = .ok (none, pastLastByte, m') := by
    rw [uiomove, if_pos hspace]
    simp [moveLoop, lastByte, pastLastByte, transfer, Uio.advance]
  refine ⟨hspace, by decide, ⟨m', hrun⟩, fun hright => ?_⟩
  rw [hrun] at hright
  have hoffset : (2 : ℤ) = 0 + (min 2 1 : ℕ) := hright.2.1.offset
  exact absurd hoffset (by decide)

end OS161.Uiomove
