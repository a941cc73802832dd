import OS161.SfsWrite

/-!
# Writing far into a file

The number of a block has 32 bits, so the position 2^41 is at block 0 again. A
write from there on that should fail is carried out at the start of the file,
and the size of the file is what is left of the position in 32 bits.
-/

set_option autoImplicit false

namespace OS161.SfsOffsets

open Function OS161.Vfs OS161.CopyInOut OS161.Sfs OS161.SfsIo OS161.Pieces OS161.SfsPieces OS161.SfsWrite
open OS161.SharedDescriptor (Rw)

/-- The end of the largest file. -/
def largestFile : ℕ := SFS_BLOCKSIZE * maxBlocks

/-- A write changes no byte outside, does not make the file shorter, and past the
largest file it fails and changes nothing. -/
structure Contained (w w' : World) (p n : ℕ) (e : Option Errno) : Prop where
  others : ∀ x, ¬(p ≤ x ∧ x < p+n) → byteAt w' x = byteAt w x
  beyond : largestFile ≤ p → e = some .efbig ∧ Unchanged w w'
  size : w.size ≤ w'.size

/-- What `sfs_io` does with a write of `n` bytes at position `p`. -/
def OffsetRight (w : World) (buf p n : ℕ) : Prop :=
  ∃ e u w', sfsIo ⟨buf, p, n, .write⟩ w = .ok (e, u, w') ∧ Contained w w' p n e

/-- The block of the position is right, or past the largest file in 32 bits as well.
Otherwise the write has to run into the end of the largest file, with nothing new before it. -/
def KeepsPlace (w : World) (buf p n : ℕ) : Prop :=
  p < 2^41 ∨ maxBlocks ≤ home p ∨
    ∃ m < pieces p n, maxBlocks ≤ home p + m ∧ (∀ i < m, Fits w buf p n i) ∧ Already w buf p n m

/-- An error of a write is `EFBIG` iff it comes from a block past the largest file. -/
structure WriteErrors (r : IoResult) : Prop where
  big : ∀ e u w, r = .ok (some e, u, w) → (e = .efbig ↔ maxBlocks ≤ fileblock u)
  write : ∀ u w, r = .ok (none, u, w) → u.rw = .write

variable {w w' : World} {buf p n m c d len skip : ℕ} {e : Errno} {u u' : Uio} {r : IoResult} {doalloc : Bool}
  {next : Uio → World → IoResult}

theorem WriteErrors.stop (stop : Stop) : WriteErrors (.error stop) := by
  constructor
  · rintro _ _ _ ⟨⟩
  · rintro _ _ ⟨⟩

theorem WriteErrors.fail (h : e = .efbig ↔ maxBlocks ≤ fileblock u) : WriteErrors (.ok (some e, u, w)) := by
  constructor
  · rintro _ _ _ ⟨⟩
    exact h
  · rintro _ _ ⟨⟩

theorem WriteErrors.go (h : u.rw = .write) : WriteErrors (.ok (none, u, w)) := by
  constructor
  · rintro _ _ _ ⟨⟩
  · rintro _ _ ⟨⟩
    exact h

theorem sfsBalloc_error (h : sfsBalloc w = .ok (.error e, w')) : e = .enospc := by
  unfold sfsBalloc at h
  cases halloc : bitmapAlloc w with
  | none =>
    simp only [halloc, Except.ok.injEq, Prod.mk.injEq, Except.error.injEq] at h
    exact h.1.symm
  | some d =>
    simp only [halloc] at h
    split_ifs at h
    cases hclear : sfsClearblock d { w with freemap := update w.freemap d true } <;> simp [hclear] at h

theorem handBack_error : handBack d w ≠ .ok (.error e, w') := by
  unfold handBack sfsBused
  intro h
  split_ifs at h
  · cases h
  · cases hused : w.freemap d <;> simp [hused] at h

theorem directBmap_error (h : directBmap c doalloc w = .ok (.error e, w')) : e = .enospc := by
  unfold directBmap at h
  simp only at h
  split_ifs at h
  · cases halloc : sfsBalloc w with
    | error stop => simp [halloc] at h
    | ok res =>
      obtain ⟨b, w₁⟩ := res
      cases b with
      | error e' =>
        simp only [halloc, Except.ok.injEq, Prod.mk.injEq, Except.error.injEq] at h
        rw [← h.1]
        exact sfsBalloc_error halloc
      | ok block =>
        simp only [halloc] at h
        exact absurd h handBack_error
  · exact absurd h handBack_error

theorem indirectBmap_error {idblock idoff : ℕ} {idbuf : Block}
    (h : indirectBmap idblock idbuf idoff doalloc w = .ok (.error e, w')) : e = .enospc := by
  unfold indirectBmap at h
  simp only at h
  split_ifs at h
  · cases halloc : sfsBalloc w with
    | error stop => simp [halloc] at h
    | ok res =>
      obtain ⟨b, w₁⟩ := res
      cases b with
      | error e' =>
        simp only [halloc, Except.ok.injEq, Prod.mk.injEq, Except.error.injEq] at h
        rw [← h.1]
        exact sfsBalloc_error halloc
      | ok block =>
        cases hwrite : sfsWriteblock idblock (putNumber idbuf idoff block) w₁ with
        | error stop => simp [halloc, hwrite] at h
        | ok w₂ =>
          simp only [halloc, hwrite] at h
          exact absurd h handBack_error
  · exact absurd h handBack_error

theorem beyond_iff (hdirect : ¬c < SFS_NDIRECT) : SFS_NINDIRECT ≤ (c - SFS_NDIRECT) / SFS_DBPERIDB ↔ maxBlocks ≤ c := by
  unfold maxBlocks SFS_NDIRECT SFS_NINDIRECT SFS_DBPERIDB at *
  omega

theorem sfsBmap_beyond (hc : maxBlocks ≤ c) : sfsBmap c doalloc w = .ok (.error .efbig, w) := by
  have hdirect : ¬c < SFS_NDIRECT := by
    unfold maxBlocks at hc
    omega
  simp only [sfsBmap, if_neg hdirect, if_pos ((beyond_iff hdirect).mpr hc)]

theorem sfsBmap_error (h : sfsBmap c doalloc w = .ok (.error e, w')) : e = .efbig ↔ maxBlocks ≤ c := by
  by_cases hc : maxBlocks ≤ c
  · rw [sfsBmap_beyond hc] at h
    cases h
    exact ⟨fun _ => hc, fun _ => rfl⟩
  · have hspace : e = .enospc := by
      by_cases hdirect : c < SFS_NDIRECT
      · rw [sfsBmap, if_pos hdirect] at h
        exact directBmap_error h
      · simp only [sfsBmap, if_neg hdirect, if_neg (mt (beyond_iff hdirect).mp hc)] at h
        split_ifs at h with hnone hread
        · cases h
        · cases halloc : sfsBalloc w with
          | error stop => simp [halloc] at h
          | ok res =>
            obtain ⟨b, w₁⟩ := res
            cases b with
            | error e' =>
              simp only [halloc, Except.ok.injEq, Prod.mk.injEq, Except.error.injEq] at h
              rw [← h.1]
              exact sfsBalloc_error halloc
            | ok block =>
              simp only [halloc] at h
              exact indirectBmap_error h
        · cases hload : sfsReadblock w.indirect w with
          | error stop => simp [hload] at h
          | ok idbuf =>
            simp only [hload] at h
            exact indirectBmap_error h
    rw [hspace]
    simp [hc]

theorem sfsBmap_ok (h : sfsBmap c doalloc w = .ok (.ok d, w')) : c < maxBlocks := by
  by_contra hc
  rw [sfsBmap_beyond (Nat.not_lt.mp hc)] at h
  cases h

theorem copyBlock_error {β : Type} {p : ℕ} {copy : ℕ → Bool × β} {dest dest' : β}
    (h : copyBlock p len copy dest = (some e, dest')) : e = .efault := by
  unfold copyBlock at h
  cases hcheck : copycheck p len with
  | none =>
    simp only [hcheck, Prod.mk.injEq, Option.some.injEq] at h
    exact h.1.symm
  | some stoplen =>
    simp only [hcheck] at h
    split_ifs at h
    · cases h
      rfl
    · rcases hcopy : copy len with ⟨ok, dest₁⟩
      cases ok with
      | true => simp [hcopy] at h
      | false =>
        simp only [hcopy, Prod.mk.injEq, Option.some.injEq] at h
        exact h.1.symm

theorem uiomove_error {ptr ptr' : Buffer} {m m' : UserMemory} (h : uiomove ptr len u m = (some e, ptr', u', m')) :
    e = .efault ∧ u' = u := by
  unfold uiomove at h
  by_cases hzero : len = 0 ∨ u.resid = 0
  · rw [if_pos hzero] at h
    cases h
  · rw [if_neg hzero] at h
    cases hrw : u.rw with
    | read =>
      rcases hcopy : copyout ptr u.base len m with ⟨res, m₁⟩
      cases res with
      | none => simp [hrw, hcopy] at h
      | some e' =>
        simp only [hrw, hcopy, Prod.mk.injEq, Option.some.injEq] at h
        rw [← h.1]
        exact ⟨copyBlock_error hcopy, h.2.2.1.symm⟩
    | write =>
      rcases hcopy : copyin m u.base len ptr with ⟨res, ptr₁⟩
      cases res with
      | none => simp [hrw, hcopy] at h
      | some e' =>
        simp only [hrw, hcopy, Prod.mk.injEq, Option.some.injEq] at h
        rw [← h.1]
        exact ⟨copyBlock_error hcopy, h.2.2.1.symm⟩

theorem uiomove_rw {res : Option Errno} {ptr ptr' : Buffer} {m m' : UserMemory}
    (h : uiomove ptr len u m = (res, ptr', u', m')) : u'.rw = u.rw := by
  cases res with
  | some e => rw [(uiomove_error h).2]
  | none =>
    unfold uiomove at h
    by_cases hzero : len = 0 ∨ u.resid = 0
    · rw [if_pos hzero] at h
      cases h
      rfl
    · rw [if_neg hzero] at h
      cases hrw : u.rw with
      | read =>
        rcases hcopy : copyout ptr u.base len m with ⟨res, m₁⟩
        cases res with
        | none =>
          simp only [hrw, hcopy, Prod.mk.injEq] at h
          rw [← h.2.2.1]
          exact hrw
        | some e' => simp [hrw, hcopy] at h
      | write =>
        rcases hcopy : copyin m u.base len ptr with ⟨res, ptr₁⟩
        cases res with
        | none =>
          simp only [hrw, hcopy, Prod.mk.injEq] at h
          rw [← h.2.2.1]
          exact hrw
        | some e' => simp [hrw, hcopy] at h

theorem partialio_errors (hrw : u.rw = .write) (w : World) : WriteErrors (sfsPartialio skip len u w) := by
  unfold sfsPartialio
  by_cases hlong : SFS_BLOCKSIZE < skip + len
  · rw [if_pos hlong]
    exact .stop _
  rw [if_neg hlong]
  cases hbmap : sfsBmap (fileblock u) (u.rw = .write) w with
  | error stop => exact .stop _
  | ok res =>
    obtain ⟨b, w₁⟩ := res
    cases b with
    | error e => exact .fail (sfsBmap_error hbmap)
    | ok d =>
      have hsmall := sfsBmap_ok hbmap
      cases hload : loadBlock u.rw d w₁ with
      | error stop =>
        simp only [hload]
        exact .stop _
      | ok iobuf =>
        rcases hmove : uiomove (fun i => iobuf (skip + i)) len u w₁.user with ⟨res, ptr, u₁, m⟩
        cases res with
        | some e =>
          obtain ⟨rfl, rfl⟩ := uiomove_error hmove
          simp only [hload, hmove]
          exact .fail (iff_of_false (by decide) (Nat.not_le.mpr hsmall))
        | none =>
          simp only [hload, hmove, if_pos hrw]
          cases hwrite : sfsWriteblock d (fun i => if skip ≤ i then ptr (i - skip) else iobuf i) { w₁ with user := m } with
          | error stop => exact .stop _
          | ok w₂ => exact .go ((uiomove_rw hmove).trans hrw)

/-- One sector: the device fails only where the caller's memory does. -/
theorem lhdIo_sector {w₁ w₂ : World} {res : Option Errno} (hresid : u.resid = SFS_BLOCKSIZE)
    (h : lhdIo u w₁ = .ok (res, u', w₂)) : u'.rw = u.rw ∧ (∀ e, res = some e → e = .efault ∧ u' = u) := by
  unfold lhdIo at h
  have hone : SFS_BLOCKSIZE / LHD_SECTSIZE = 0+1 := rfl
  simp only [hresid, hone] at h
  split_ifs at h
  cases hrw : u.rw with
  | read =>
    rcases hmove : uiomove (w₁.disk (u.offset / LHD_SECTSIZE % 2^32)) LHD_SECTSIZE u w₁.user with ⟨res', ptr, u₁, m⟩
    have hkeeps := (uiomove_rw hmove).trans hrw
    cases res' with
    | some e' =>
      simp only [lhdSectors, hrw, hmove, Except.ok.injEq, Prod.mk.injEq] at h
      obtain ⟨rfl, rfl, -⟩ := h
      refine ⟨hkeeps, ?_⟩
      rintro e ⟨⟩
      exact uiomove_error hmove
    | none =>
      simp only [lhdSectors, hrw, hmove, Except.ok.injEq, Prod.mk.injEq] at h
      obtain ⟨rfl, rfl, -⟩ := h
      exact ⟨hkeeps, fun e he => by cases he⟩
  | write =>
    rcases hmove : uiomove zeros LHD_SECTSIZE u w₁.user with ⟨res', ptr, u₁, m⟩
    have hkeeps := (uiomove_rw hmove).trans hrw
    cases res' with
    | some e' =>
      simp only [lhdSectors, hrw, hmove, Except.ok.injEq, Prod.mk.injEq] at h
      obtain ⟨rfl, rfl, -⟩ := h
      refine ⟨hkeeps, ?_⟩
      rintro e ⟨⟩
      exact uiomove_error hmove
    | none =>
      simp only [lhdSectors, hrw, hmove, Except.ok.injEq, Prod.mk.injEq] at h
      obtain ⟨rfl, rfl, -⟩ := h
      exact ⟨hkeeps, fun e he => by cases he⟩

theorem blockio_errors (hrw : u.rw = .write) (w : World) : WriteErrors (sfsBlockio u w) := by
  unfold sfsBlockio
  cases hbmap : sfsBmap (fileblock u) (u.rw = .write) w with
  | error stop => exact .stop _
  | ok res =>
    obtain ⟨b, w₁⟩ := res
    cases b with
    | error e => exact .fail (sfsBmap_error hbmap)
    | ok d =>
      have hsmall := sfsBmap_ok hbmap
      have hread : ¬u.rw = .read := by
        rw [hrw]
        decide
      simp only [if_neg hread]
      split_ifs
      · exact .stop _
      · exact .stop _
      · cases hio : lhdIo { u with offset := d * SFS_BLOCKSIZE % 2^32, resid := SFS_BLOCKSIZE } w₁ with
        | error stop => exact .stop _
        | ok res =>
          obtain ⟨res, u₁, w₂⟩ := res
          obtain ⟨hkeeps, hfault⟩ := lhdIo_sector rfl hio
          cases res with
          | none => exact .go (hkeeps.trans hrw)
          | some e =>
            obtain ⟨rfl, rfl⟩ := hfault e rfl
            apply WriteErrors.fail
            simp only [fileblock, Nat.sub_self, Nat.zero_add]
            exact iff_of_false (by decide) (Nat.not_le.mpr hsmall)

theorem WriteErrors.andThen (h : WriteErrors r) (hnext : ∀ u w, u.rw = .write → WriteErrors (next u w)) :
    WriteErrors (andThen r next) := by
  cases r with
  | error stop => exact .stop _
  | ok res =>
    obtain ⟨e, u, w⟩ := res
    cases e with
    | none => exact hnext u w (h.write u w rfl)
    | some e => exact h

theorem blockLoop_errors {l : ℕ} (hrw : u.rw = .write) (w : World) : WriteErrors (blockLoop l u w) := by
  induction l generalizing u w with
  | zero => exact .go hrw
  | succ l ih => exact (blockio_errors hrw w).andThen fun u' w' hrw' => ih hrw' w'

theorem transferAligned_errors (hrw : u.rw = .write) (w : World) : WriteErrors (transferAligned u w) := by
  unfold transferAligned
  split_ifs
  · exact .go hrw
  · exact .stop _
  · apply (blockLoop_errors hrw w).andThen
    intro u' w' hrw'
    split_ifs
    · exact .stop _
    · exact partialio_errors hrw' w'
    · exact .go hrw'

theorem transfer_errors (hrw : u.rw = .write) (w : World) : WriteErrors (transfer u w) := by
  unfold transfer
  simp only
  refine WriteErrors.andThen ?_ fun u' w' hrw' => transferAligned_errors hrw' w'
  split_ifs
  · exact partialio_errors hrw w
  · exact .go hrw

/-- The first block of a write is past the largest file. -/
theorem sfsIo_beyond (hn : 0 < n) (hp : maxBlocks ≤ home p) (w : World) :
    sfsIo ⟨buf, p, n, .write⟩ w = .ok (some .efbig, ⟨buf, p, n, .write⟩, w) := by
  have hfirst : ∀ k, fileblock ⟨buf, p, k, .write⟩ = home p := fun _ => rfl
  have hpart : ∀ skip len k, skip + len ≤ SFS_BLOCKSIZE →
      sfsPartialio skip len ⟨buf, p, k, .write⟩ w = .ok (some .efbig, ⟨buf, p, k, .write⟩, w) := by
    intro skip len k hinside
    simp only [sfsPartialio, if_neg (Nat.not_lt.mpr hinside), hfirst, decide_true, sfsBmap_beyond hp]
  have hblock : sfsBlockio ⟨buf, p, n, .write⟩ w = .ok (some .efbig, ⟨buf, p, n, .write⟩, w) := by
    simp only [sfsBlockio, hfirst, decide_true, sfsBmap_beyond hp]
  have htransfer : transfer ⟨buf, p, n, .write⟩ w = .ok (some .efbig, ⟨buf, p, n, .write⟩, w) := by
    unfold transfer
    by_cases hstart : p % SFS_BLOCKSIZE = 0
    · simp only [hstart, ne_eq, not_true_eq_false, if_false, andThen, transferAligned, if_neg (Nat.ne_of_gt hn)]
      cases hl : n / SFS_BLOCKSIZE with
      | zero =>
        have hless : n < SFS_BLOCKSIZE := by
          unfold SFS_BLOCKSIZE at hl ⊢
          omega
        simp only [blockLoop, if_neg (Nat.not_le.mpr hless), if_pos hn]
        exact hpart 0 n n (by omega)
      | succ l => simp only [blockLoop, hblock, andThen]
    · have hlt := Nat.mod_lt p (show 0 < SFS_BLOCKSIZE by decide)
      simp only [ne_eq, hstart, not_false_eq_true, if_true]
      rw [hpart _ _ _ (by omega)]
      rfl
  simp only [sfsIo, reduceCtorEq, false_and, if_false, Nat.sub_zero, htransfer, Nat.add_zero, ne_eq, not_true_eq_false]

/-- The blocks that can be written are those of the largest file. -/
theorem fits_end (hfits : ∀ i < m, Fits w buf p n i) (hcut : 0 < cut p n m) : wrapped p + cut p n m ≤ largestFile := by
  cases m with
  | zero =>
    rw [cut_zero] at hcut
    exact absurd hcut (Nat.lt_irrefl 0)
  | succ m =>
    have hlast := (hfits m (Nat.lt_succ_self m)).block
    simp only [cut, home, wrapped, largestFile, SFS_BLOCKSIZE, maxBlocks, SFS_NDIRECT, SFS_NINDIRECT, SFS_DBPERIDB] at *
    omega

/-- `sfs_io` for a write, and which error it is that ends it. -/
theorem sfsIo_errors (h : WellFormed w) (hbuf : buf < 2^32) (hlow : LowTargets w buf p n) :
    ∃ m e u w', sfsIo ⟨buf, p, n, .write⟩ w = .ok (e, u, w') ∧ Outcome w buf p n m e u w' ∧
      (e = some .efbig ↔ m < pieces p n ∧ maxBlocks ≤ home p + m) := by
  obtain ⟨e, u, w', hrun, hprogress⟩ := (write_carries hlow).transfer (reached_start h hbuf)
  cases hprogress with
  | done _ hok hat =>
    simp only [Nat.zero_add] at hok hat
    obtain ⟨u', w'', hio, hout⟩ := outcome_of_transfer hrun hok (.inl ⟨rfl, rfl⟩) hat.stopped
    exact ⟨pieces p n, none, u', w'', hio, hout, iff_of_false (by simp) (fun hm => absurd hm.1 (Nat.lt_irrefl _))⟩
  | failed e _ m hm hok hbad hnear =>
    simp only [Nat.zero_add] at hok hbad hnear
    obtain ⟨u', w'', hio, hout⟩ := outcome_of_transfer hrun hok (.inr ⟨by simp, hm, hbad⟩) hnear
    have huio : u = ⟨buf + cut p n m, p + cut p n m, n - cut p n m, .write⟩ := hnear.uio
    have hblock : fileblock u = (home p + m) % 2^32 := by
      rw [huio]
      exact (within_piece hm).file_block
    have hsmall : home p + m < 2^32 := by
      have hhome : home p < 2^32 := Nat.mod_lt _ (by decide)
      cases m with
      | zero => exact hhome
      | succ m =>
        have hlast := (hok m (Nat.lt_succ_self m)).block
        unfold maxBlocks SFS_NDIRECT SFS_NINDIRECT SFS_DBPERIDB at hlast
        omega
    have hbig := (transfer_errors (u := ⟨buf, p, n, .write⟩) rfl w).big e u w' hrun
    rw [hblock, Nat.mod_eq_of_lt hsmall] at hbig
    refine ⟨m, some e, u', w'', hio, hout, ?_⟩
    rw [Option.some.injEq, hbig]
    exact ⟨fun hle => ⟨hm, hle⟩, fun hle => hle.2⟩

theorem home_beyond : maxBlocks ≤ home p ↔ largestFile ≤ wrapped p := by
  unfold home wrapped largestFile maxBlocks SFS_BLOCKSIZE SFS_NDIRECT SFS_NINDIRECT SFS_DBPERIDB
  omega

/-- A write to an offset does what it should iff the offset is what the block is found by. -/
theorem write_offset_iff (w : World) (buf p n : ℕ) (h : WellFormed w) (hn : 0 < n) (hbuf : buf < 2^32)
    (hlow : LowTargets w buf p n) : OffsetRight w buf p n ↔ KeepsPlace w buf p n := by
  have hlarge : largestFile = 73216 := by decide
  by_cases hbeyond : maxBlocks ≤ home p
  · refine ⟨fun _ => .inr (.inl hbeyond), fun _ => ?_⟩
    exact ⟨_, _, _, sfsIo_beyond hn hbeyond w, fun _ _ => rfl, fun _ => ⟨rfl, fun _ => rfl, rfl⟩, Nat.le_refl _⟩
  · obtain ⟨m, e, u, w', hio, hout, hbig⟩ := sfsIo_errors h hbuf hlow
    have hinside : wrapped p < largestFile := Nat.not_le.mp (mt home_beyond.mpr hbeyond)
    by_cases hp : p < 2^41
    · refine ⟨fun _ => .inl hp, fun _ => ⟨e, u, w', hio, ?_, ?_, ?_⟩⟩
      · have hwrapped : wrapped p = p := Nat.mod_eq_of_lt hp
        have hcut : cut p n m ≤ n := Nat.min_le_left _ _
        intro x hx
        exact hout.outside (by omega)
      · unfold wrapped at hinside
        omega
      · have hsize := hout.size
        have hend : 0 < cut p n m → wrapped p + cut p n m ≤ largestFile := fits_end hout.fits
        unfold wrapped at hend
        rw [hsize]
        split_ifs <;> omega
    · constructor
      · rintro ⟨e', u', w'', hio', hcontained⟩
        rw [hio] at hio'
        cases hio'
        obtain ⟨hefbig, hsame⟩ := hcontained.beyond (by omega)
        obtain ⟨hm, hblock⟩ := hbig.mp hefbig
        refine .inr (.inr ⟨m, hm, hblock, hout.fits, ?_⟩)
        obtain rfl | halready := (hout.unchanged_iff hm).mp hsame
        · exact absurd hblock hbeyond
        · exact halready
      · rintro (hlt | hle | ⟨k, hk, hblock, hfits, halready⟩)
        · exact absurd hlt hp
        · exact absurd hle hbeyond
        · -- the block past the largest file is the first that cannot be written
          have hbad : ¬Fits w buf p n k := fun hfit => absurd hfit.block (Nat.not_lt.mpr hblock)
          have hfirst : k = m := by
            obtain ⟨-, rfl⟩ | ⟨-, -, hbad'⟩ := hout.ends
            · exact absurd (hout.fits k hk) hbad
            · by_contra hne
              by_cases hlt : k < m
              · exact hbad (hout.fits k hlt)
              · exact hbad' (hfits m (by omega))
          subst hfirst
          have hsame := (hout.unchanged_iff hk).mpr (.inr halready)
          exact ⟨e, u, w', hio, fun x _ => hsame.bytes x, fun _ => ⟨hbig.mpr ⟨hk, hblock⟩, hsame⟩,
            Nat.le_of_eq hsame.size.symm⟩

/-- The last byte of the first block of a new file. -/
theorem lastByte_offset : OffsetRight oneFree 4096 511 1 := by
  have hlow : LowTargets oneFree 4096 511 1 := by
    intro i d _ _ htarget
    obtain ⟨hne, -⟩ | ⟨-, hfree, -⟩ := htarget
    · exact absurd (oneFree_mapped _) hne
    · rw [oneFree_free hfree]
      decide
  exact (write_offset_iff oneFree 4096 511 1 oneFree_sound (by decide) (by decide) hlow).mpr (.inl (by decide))

/-- At 2^41 the first byte of the file is written, and the file has one byte then. -/
theorem farByte_wraps :
    (match sfsIo ⟨4096, 2^41, 1, .write⟩ oneFree with
      | .ok (e, _, w) => some (e, w.size, byteAt w 0)
      | .error _ => none) = some (none, 1, 7) ∧ ¬OffsetRight oneFree 4096 (2^41) 1 := by
  have hresult : (match sfsIo ⟨4096, 2^41, 1, .write⟩ oneFree with
      | .ok (e, _, w) => some (e, w.size, byteAt w 0)
      | .error _ => none) = some (none, 1, 7) := by
    decide +kernel
  refine ⟨hresult, ?_⟩
  rintro ⟨e, u, w, hio, hcontained⟩
  simp only [hio, Option.some.injEq, Prod.mk.injEq] at hresult
  have hefbig := (hcontained.beyond (by decide)).1
  rw [hresult.1] at hefbig
  cases hefbig

end OS161.SfsOffsets
