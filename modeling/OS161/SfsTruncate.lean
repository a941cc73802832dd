import OS161.Sfs

/-!
# Cutting a file off

`sfs_itrunc` discards the blocks past a length: those of the inode from the
length on, those of the indirect block only after it. So a block there that
begins just at the length stays, and an indirect block is not looked at when the
length is in its last block.
-/

set_option autoImplicit false

namespace OS161.SfsTruncate

open Function OS161.Vfs OS161.CopyInOut OS161.Sfs

-- a bit that is not there or not set is a failed assertion in `bitmap_unmark`
def sfsBfree (diskblock : ℕ) (w : World) : Except Stop World :=
  if w.nbits ≤ diskblock ∨ w.freemap diskblock = false then .error .panic
  else .ok { w with freemap := update w.freemap diskblock false }

/-- The loop over the direct blocks, with `left` of them from `i` on. -/
def directLoop (blocklen : ℕ) : (left i : ℕ) → World → Except Stop World
  | 0, _, w => .ok w
  | left+1, i, w =>
    let block := w.direct i
    if blocklen ≤ i ∧ block ≠ 0 then
      match sfsBfree block w with
      | .error stop => .error stop
      | .ok w' => directLoop blocklen left (i+1) { w' with direct := update w'.direct i 0 }
    else directLoop blocklen left (i+1) w

/-- What the loop over the indirect block keeps. -/
structure Scan where
  idbuf : Block
  hasnonzero : Bool
  iddirty : Bool

def indirectLoop (blocklen : ℕ) : (left j : ℕ) → Scan → World → Except Stop (Scan × World)
  | 0, _, s, w => .ok (s, w)
  | left+1, j, s, w =>
    if blocklen < SFS_NDIRECT + j ∧ getNumber s.idbuf j ≠ 0 then
      match sfsBfree (getNumber s.idbuf j) w with
      | .error stop => .error stop
      | .ok w' => indirectLoop blocklen left (j+1) { s with idbuf := putNumber s.idbuf j 0, iddirty := true } w'
    else indirectLoop blocklen left (j+1) { s with hasnonzero := s.hasnonzero || getNumber s.idbuf j != 0 } w

/-- The end of `sfs_itrunc` for an indirect block that has been gone through. -/
def indirectDone (idblock : ℕ) (s : Scan) (w : World) : Except Stop World :=
  if !s.hasnonzero then
    match sfsBfree idblock w with
    | .error stop => .error stop
    | .ok w' => .ok { w' with indirect := 0 }
  else if s.iddirty then sfsWriteblock idblock s.idbuf w
  else .ok w

def indirectTrunc (blocklen : ℕ) (w : World) : Except Stop World :=
  let idblock := w.indirect
  let highblock := SFS_NDIRECT + SFS_DBPERIDB - 1
  if blocklen < highblock ∧ idblock ≠ 0 then
    match sfsReadblock idblock w with
    | .error stop => .error stop
    | .ok idbuf =>
      match indirectLoop blocklen SFS_DBPERIDB 0 ⟨idbuf, false, false⟩ w with
      | .error stop => .error stop
      | .ok (s, w') => indirectDone idblock s w'
  else .ok w

/-- A length in blocks. -/
def blocksOf (len : ℕ) : ℕ := (len + (SFS_BLOCKSIZE - 1)) / SFS_BLOCKSIZE

-- the number of blocks and the size have 32 bits
def sfsItrunc (len : ℕ) (w : World) : Except Stop World :=
  let blocklen := blocksOf len % 2^32
  match directLoop blocklen SFS_NDIRECT 0 w with
  | .error stop => .error stop
  | .ok w' =>
    match indirectTrunc blocklen w' with
    | .error stop => .error stop
    | .ok w'' => .ok { w'' with size := len % 2^32 }

/-- A volume in use: its bitmap has a bit for every block. -/
structure Mounted (w : World) : Prop where
  sound : WellFormed w
  bits : w.nblocks ≤ w.nbits

/-- The blocks of the file that the code discards. -/
def Past (blocklen c : ℕ) : Prop := if c < SFS_NDIRECT then blocklen ≤ c else blocklen < c

instance (blocklen : ℕ) : DecidablePred (Past blocklen) := fun c => by
  unfold Past
  infer_instance

/-- The blocks in `S` have been given back, and nothing else is different. -/
structure Frees (S : ℕ → Prop) (w w' : World) : Prop where
  kept : Kept w w'
  freemap : ∀ d, w'.freemap d = true ↔ w.freemap d = true ∧ ¬S d
  disk : w'.disk = w.disk
  indirect : w'.indirect = w.indirect

variable {w w' w'' : World} {S T : ℕ → Prop} {b c d i j k n left len : ℕ} {s : Scan}

theorem Frees.trans (h : Frees S w w') (h' : Frees T w' w'') : Frees (fun d => S d ∨ T d) w w'' := by
  refine ⟨h.kept.trans h'.kept, ?_, h'.disk.trans h.disk, h'.indirect.trans h.indirect⟩
  intro d
  rw [h'.freemap, h.freemap, not_or, and_assoc]

theorem Frees.congr (h : Frees S w w') (hST : ∀ d, S d ↔ T d) : Frees T w w' := by
  refine ⟨h.kept, ?_, h.disk, h.indirect⟩
  intro d
  rw [h.freemap, hST]

theorem frees_nothing (w : World) : Frees (fun _ => False) w w :=
  ⟨Kept.refl w, fun _ => by simp, rfl, rfl⟩

theorem sfsBfree_frees (hused : w.freemap d = true) (hd : d < w.nbits) :
    ∃ w', sfsBfree d w = .ok w' ∧ Frees (fun e => e = d) w w' ∧ w'.direct = w.direct := by
  have hbit : ¬(w.nbits ≤ d ∨ w.freemap d = false) := by
    rw [hused, not_or]
    exact ⟨Nat.not_le.mpr hd, by decide⟩
  refine ⟨{ w with freemap := update w.freemap d false }, if_neg hbit, ⟨⟨rfl, rfl, rfl, rfl, rfl⟩, ?_, rfl, rfl⟩, rfl⟩
  intro e
  show update w.freemap d false e = true ↔ _
  by_cases he : e = d
  · subst he
    simp
  · simp [he]

/-- The numbers of a table are of blocks in use, each of one of its own. -/
structure Table (n : ℕ) (t : ℕ → ℕ) (w : World) : Prop where
  used : ∀ i < n, t i ≠ 0 → w.freemap (t i) = true ∧ t i < w.nbits
  once : ∀ i < n, ∀ k < n, t i = t k → t i ≠ 0 → i = k

/-- The table without number `i`, once that block is free. -/
theorem Table.erase {t t' : ℕ → ℕ} (h : Table n t w) (hi : i < n) (hfrees : Frees (fun e => e = t i) w w')
    (hsame : ∀ k, t' k = if k = i then 0 else t k) : Table n t' w' := by
  constructor
  · intro k hkn hk
    rw [hsame] at hk ⊢
    split_ifs at hk ⊢ with hki
    · exact absurd rfl hk
    · obtain ⟨hused, hlt⟩ := h.used k hkn hk
      rw [hfrees.freemap, hfrees.kept.nbits]
      exact ⟨⟨hused, fun heq => hki (h.once k hkn i hi heq hk)⟩, hlt⟩
  · intro k hkn l hln heq hk
    rw [hsame] at hk heq
    by_cases hki : k = i
    · rw [if_pos hki] at hk
      exact absurd rfl hk
    · rw [if_neg hki] at hk heq
      by_cases hli : l = i
      · rw [hsame, if_pos hli] at heq
        exact absurd heq hk
      · rw [hsame, if_neg hli] at heq
        exact h.once k hkn l hln heq hk

/-- The numbers from `i` on that are past the limit, of `left`. -/
def Gone (past : ℕ → Prop) (t : ℕ → ℕ) (i left d : ℕ) : Prop := ∃ k, i ≤ k ∧ k < i+left ∧ past k ∧ t k = d ∧ t k ≠ 0

theorem directLoop_frees (h : Table n w.direct w) (hn : i + left ≤ n) :
    ∃ w', directLoop b left i w = .ok w' ∧ Frees (Gone (fun k => b ≤ k) w.direct i left) w w' ∧
      ∀ k, w'.direct k = if i ≤ k ∧ k < i+left ∧ b ≤ k then 0 else w.direct k := by
  induction left generalizing i w with
  | zero =>
    refine ⟨w, rfl, (frees_nothing w).congr fun d => ?_, fun k => (if_neg (by omega)).symm⟩
    constructor
    · intro hfalse
      exact hfalse.elim
    · rintro ⟨k, hk, hlt, -⟩
      omega
  | succ left ih =>
    by_cases hpast : b ≤ i ∧ w.direct i ≠ 0
    · obtain ⟨hused, hlt⟩ := h.used i (by omega) hpast.2
      obtain ⟨w₁, hfree, hfrees, hdirect⟩ := sfsBfree_frees hused hlt
      let w₂ : World := { w₁ with direct := update w₁.direct i 0 }
      have hat : ∀ k, w₂.direct k = if k = i then 0 else w.direct k := by
        intro k
        show update w₁.direct i 0 k = _
        rw [hdirect, update_apply]
      have hfrees' : Frees (fun e => e = w.direct i) w w₂ := by
        obtain ⟨hsize, hnbits, hnblocks, hdevice, huser⟩ := hfrees.kept
        exact ⟨⟨hsize, hnbits, hnblocks, hdevice, huser⟩, hfrees.freemap, hfrees.disk, hfrees.indirect⟩
      obtain ⟨w', hloop, hrest, hall⟩ := ih (i := i+1) (h.erase (by omega) hfrees' hat) (by omega)
      refine ⟨w', ?_, (hfrees'.trans hrest).congr fun d => ?_, ?_⟩
      · simp only [directLoop, if_pos hpast, hfree]
        exact hloop
      · constructor
        · rintro (rfl | ⟨k, hk, hlt', hb, hkd, hne⟩)
          · exact ⟨i, Nat.le_refl i, by omega, hpast.1, rfl, hpast.2⟩
          · rw [hat, if_neg (by omega)] at hkd hne
            exact ⟨k, by omega, by omega, hb, hkd, hne⟩
        · rintro ⟨k, hk, hlt', hb, hkd, hne⟩
          by_cases hki : k = i
          · subst hki
            exact .inl hkd.symm
          · refine .inr ⟨k, by omega, by omega, hb, ?_⟩
            rw [hat, if_neg hki]
            exact ⟨hkd, hne⟩
      · intro k
        rw [hall, hat]
        by_cases hki : k = i
        · subst hki
          rw [if_neg (by omega), if_pos rfl, if_pos ⟨Nat.le_refl _, by omega, hpast.1⟩]
        · rw [if_neg hki]
          by_cases hin : i ≤ k ∧ k < i+(left+1) ∧ b ≤ k
          · rw [if_pos hin, if_pos (by omega)]
          · rw [if_neg hin, if_neg (by omega)]
    · obtain ⟨w', hloop, hrest, hall⟩ := ih (i := i+1) h (by omega)
      refine ⟨w', ?_, hrest.congr fun d => ?_, ?_⟩
      · simp only [directLoop, if_neg hpast]
        exact hloop
      · constructor
        · rintro ⟨k, hk, hlt', hb, hkd, hne⟩
          exact ⟨k, by omega, by omega, hb, hkd, hne⟩
        · rintro ⟨k, hk, hlt', hb, hkd, hne⟩
          have hki : k ≠ i := by
            rintro rfl
            exact hpast ⟨hb, hne⟩
          exact ⟨k, by omega, by omega, hb, hkd, hne⟩
      · intro k
        rw [hall]
        by_cases hki : k = i
        · subst hki
          rw [if_neg (by omega)]
          by_cases hb : b ≤ k
          · have hzero : w.direct k = 0 := by
              by_contra hne
              exact hpast ⟨hb, hne⟩
            rw [hzero, ite_self]
          · rw [if_neg (by omega)]
        · by_cases hin : i ≤ k ∧ k < i+(left+1) ∧ b ≤ k
          · rw [if_pos hin, if_pos (by omega)]
          · rw [if_neg hin, if_neg (by omega)]

/-- What the loop has made of the indirect block. -/
structure Scanned (b j left : ℕ) (s s' : Scan) : Prop where
  entries : ∀ k, getNumber s'.idbuf k = if j ≤ k ∧ k < j+left ∧ b < SFS_NDIRECT + k then 0 else getNumber s.idbuf k
  nonzero : s'.hasnonzero = true ↔ s.hasnonzero = true ∨ ∃ k, j ≤ k ∧ k < j+left ∧ getNumber s'.idbuf k ≠ 0
  clean : s'.iddirty = false → s.iddirty = false ∧ s'.idbuf = s.idbuf

theorem scanned_nothing (b j : ℕ) (s : Scan) : Scanned b j 0 s s := by
  refine ⟨fun k => (if_neg (by omega)).symm, ?_, fun h => ⟨h, rfl⟩⟩
  constructor
  · exact fun h => .inl h
  · rintro (h | ⟨k, hk, hlt, -⟩)
    · exact h
    · omega

/-- One entry has been looked at, and then the others. -/
theorem Scanned.cons {s₁ s' : Scan} (h : Scanned b (j+1) left s₁ s')
    (hentries : ∀ k, getNumber s₁.idbuf k = if k = j ∧ b < SFS_NDIRECT + k then 0 else getNumber s.idbuf k)
    (hnonzero : s₁.hasnonzero = true ↔ s.hasnonzero = true ∨ getNumber s₁.idbuf j ≠ 0)
    (hclean : s₁.iddirty = false → s.iddirty = false ∧ s₁.idbuf = s.idbuf) : Scanned b j (left+1) s s' := by
  have hfirst : getNumber s'.idbuf j = getNumber s₁.idbuf j := by
    rw [h.entries, if_neg (by omega)]
  refine ⟨?_, ?_, ?_⟩
  · intro k
    rw [h.entries, hentries]
    by_cases hkj : k = j
    · subst hkj
      rw [if_neg (by omega)]
      by_cases hb : b < SFS_NDIRECT + k
      · rw [if_pos ⟨rfl, hb⟩, if_pos ⟨Nat.le_refl k, by omega, hb⟩]
      · rw [if_neg (fun hin => hb hin.2), if_neg (fun hin => hb hin.2.2)]
    · rw [if_neg (show ¬(k = j ∧ b < SFS_NDIRECT + k) from fun hin => hkj hin.1)]
      by_cases hin : j ≤ k ∧ k < j+(left+1) ∧ b < SFS_NDIRECT + k
      · rw [if_pos hin, if_pos (by omega)]
      · rw [if_neg hin, if_neg (by omega)]
  · rw [h.nonzero, hnonzero]
    constructor
    · rintro ((hs | hj) | ⟨k, hk, hlt, hne⟩)
      · exact .inl hs
      · exact .inr ⟨j, Nat.le_refl j, by omega, by rwa [hfirst]⟩
      · exact .inr ⟨k, by omega, by omega, hne⟩
    · rintro (hs | ⟨k, hk, hlt, hne⟩)
      · exact .inl (.inl hs)
      · by_cases hkj : k = j
        · subst hkj
          exact .inl (.inr (by rwa [← hfirst]))
        · exact .inr ⟨k, by omega, by omega, hne⟩
  · intro hs'
    obtain ⟨hs₁, hbuf⟩ := h.clean hs'
    obtain ⟨hs, hbuf'⟩ := hclean hs₁
    exact ⟨hs, hbuf.trans hbuf'⟩

theorem indirectLoop_frees (h : Table n (getNumber s.idbuf) w) (hn : j + left ≤ n) :
    ∃ s' w', indirectLoop b left j s w = .ok (s', w') ∧
      Frees (Gone (fun k => b < SFS_NDIRECT + k) (getNumber s.idbuf) j left) w w' ∧ w'.direct = w.direct ∧
      Scanned b j left s s' := by
  induction left generalizing j s w with
  | zero =>
    refine ⟨s, w, rfl, (frees_nothing w).congr fun d => ?_, rfl, scanned_nothing b j s⟩
    constructor
    · intro hfalse
      exact hfalse.elim
    · rintro ⟨k, hk, hlt, -⟩
      omega
  | succ left ih =>
    by_cases hpast : b < SFS_NDIRECT + j ∧ getNumber s.idbuf j ≠ 0
    · obtain ⟨hused, hbit⟩ := h.used j (by omega) hpast.2
      obtain ⟨w₁, hfree, hfrees, hdirect⟩ := sfsBfree_frees hused hbit
      let s₁ : Scan := { s with idbuf := putNumber s.idbuf j 0, iddirty := true }
      have hat : ∀ k, getNumber s₁.idbuf k = if k = j then 0 else getNumber s.idbuf k :=
        fun k => getNumber_put s.idbuf j k (by decide)
      obtain ⟨s', w', hloop, hrest, hsame, hscan⟩ := ih (j := j+1) (s := s₁) (h.erase (by omega) hfrees hat) (by omega)
      refine ⟨s', w', ?_, (hfrees.trans hrest).congr fun d => ?_, hsame.trans hdirect, hscan.cons ?_ ?_ ?_⟩
      · simp only [indirectLoop, if_pos hpast, hfree]
        exact hloop
      · constructor
        · rintro (rfl | ⟨k, hk, hlt', hb, hkd, hne⟩)
          · exact ⟨j, Nat.le_refl j, by omega, hpast.1, rfl, hpast.2⟩
          · rw [hat, if_neg (by omega)] at hkd hne
            exact ⟨k, by omega, by omega, hb, hkd, hne⟩
        · rintro ⟨k, hk, hlt', hb, hkd, hne⟩
          by_cases hkj : k = j
          · subst hkj
            exact .inl hkd.symm
          · refine .inr ⟨k, by omega, by omega, hb, ?_⟩
            rw [hat, if_neg hkj]
            exact ⟨hkd, hne⟩
      · intro k
        rw [hat]
        by_cases hkj : k = j
        · rw [if_pos hkj, if_pos ⟨hkj, by rw [hkj]; exact hpast.1⟩]
        · rw [if_neg hkj, if_neg (fun hin => hkj hin.1)]
      · rw [hat, if_pos rfl]
        simp [s₁]
      · intro hfalse
        cases hfalse
    · let s₁ : Scan := { s with hasnonzero := s.hasnonzero || getNumber s.idbuf j != 0 }
      obtain ⟨s', w', hloop, hrest, hsame, hscan⟩ := ih (j := j+1) (s := s₁) h (by omega)
      refine ⟨s', w', ?_, hrest.congr fun d => ?_, hsame, hscan.cons ?_ ?_ ?_⟩
      · simp only [indirectLoop, if_neg hpast]
        exact hloop
      · constructor
        · rintro ⟨k, hk, hlt', hb, hkd, hne⟩
          exact ⟨k, by omega, by omega, hb, hkd, hne⟩
        · rintro ⟨k, hk, hlt', hb, hkd, hne⟩
          have hkj : k ≠ j := by
            rintro rfl
            exact hpast ⟨hb, hne⟩
          exact ⟨k, by omega, by omega, hb, hkd, hne⟩
      · intro k
        by_cases hkj : k = j ∧ b < SFS_NDIRECT + k
        · have hzero : getNumber s.idbuf j = 0 := by
            by_contra hne
            exact hpast ⟨by rw [← hkj.1]; exact hkj.2, hne⟩
          rw [if_pos hkj, hkj.1]
          exact hzero
        · rw [if_neg hkj]
      · simp [s₁]
      · exact fun hs => ⟨hs, rfl⟩

/-- The blocks in `P` are not the file's any more, and everything else is as before. -/
structure Discards (P : ℕ → Prop) (w w' : World) : Prop where
  mounted : Mounted w'
  kept : Kept w w'
  gone : ∀ c, P c → mapped w' c = 0
  stays : ∀ c, ¬P c → mapped w' c = mapped w c
  freed : ∀ c, P c → mapped w c ≠ 0 → w'.freemap (mapped w c) = false
  fewer : ∀ d, w.freemap d = false → w'.freemap d = false
  data : ∀ c, ¬P c → blockData w' c = blockData w c
  foreign : ∀ e, Foreign w e → Foreign w' e ∧ w'.disk e = w.disk e

theorem Discards.trans {P Q : ℕ → Prop} (h : Discards P w w') (h' : Discards Q w' w'') :
    Discards (fun c => P c ∨ Q c) w w'' := by
  refine ⟨h'.mounted, h.kept.trans h'.kept, ?_, ?_, ?_, fun d hd => h'.fewer d (h.fewer d hd), ?_, ?_⟩
  · intro c hc
    by_cases hQ : Q c
    · exact h'.gone c hQ
    · rw [h'.stays c hQ]
      exact h.gone c (hc.resolve_right hQ)
  · intro c hc
    rw [not_or] at hc
    rw [h'.stays c hc.2, h.stays c hc.1]
  · intro c hc hne
    by_cases hP : P c
    · exact h'.fewer _ (h.freed c hP hne)
    · have hsame := h.stays c hP
      rw [← hsame] at hne ⊢
      exact h'.freed c (hc.resolve_left hP) hne
  · intro c hc
    rw [not_or] at hc
    rw [h'.data c hc.2, h.data c hc.1]
  · intro e he
    obtain ⟨he', hdisk⟩ := h.foreign e he
    obtain ⟨he'', hdisk'⟩ := h'.foreign e he'
    exact ⟨he'', hdisk'.trans hdisk⟩

theorem Discards.congr {P Q : ℕ → Prop} (h : Discards P w w') (hPQ : ∀ c, P c ↔ Q c) : Discards Q w w' := by
  have heq : P = Q := funext fun c => propext (hPQ c)
  rwa [← heq]

/-- Nothing that is in use for something else is block 0. -/
theorem foreign_pos {e : ℕ} (h : Foreign w e) : e ≠ 0 := by
  rintro rfl
  apply h.2.1 maxBlocks
  unfold mapped
  rw [if_neg (by decide), if_neg (Nat.lt_irrefl _)]

/-- Exactly the blocks in `P` have been given back, and the indirect block if the file has none any more. -/
theorem discards_of {P : ℕ → Prop} (h : Mounted w) (hkept : Kept w w')
    (hfreemap : ∀ d, w'.freemap d = true ↔ w.freemap d = true ∧
      ¬((∃ c, P c ∧ mapped w c = d ∧ mapped w c ≠ 0) ∨ (d = w.indirect ∧ w'.indirect ≠ w.indirect)))
    (hgone : ∀ c, P c → mapped w' c = 0) (hstays : ∀ c, ¬P c → mapped w' c = mapped w c)
    (hdisk : ∀ e, e ≠ w.indirect → w'.disk e = w.disk e)
    (hindirect : w'.indirect = w.indirect ∨ (w'.indirect = 0 ∧ w.indirect ≠ 0)) : Discards P w w' := by
  have hpresent : ∀ c, mapped w' c ≠ 0 → ¬P c ∧ mapped w' c = mapped w c := by
    intro c hc
    have hP : ¬P c := fun hP => hc (hgone c hP)
    exact ⟨hP, hstays c hP⟩
  have hkeeps : ∀ c, mapped w' c = 0 ∨ mapped w' c = mapped w c := by
    intro c
    by_cases hc : mapped w' c = 0
    · exact .inl hc
    · exact .inr (hpresent c hc).2
  have hpart : w'.indirect ≠ 0 → w'.indirect = w.indirect := fun hne => hindirect.resolve_right fun h0 => hne h0.1
  refine ⟨⟨⟨?_, ?_, ?_, ?_, ?_, ?_, ?_, ?_⟩, ?_⟩, hkept, hgone, hstays, ?_, ?_, ?_, ?_⟩
  · rw [hkept.size]
    exact h.sound.size
  · rintro d ⟨hlt, hclear⟩
    rw [hkept.nbits] at hlt
    rw [hkept.nblocks]
    cases hbit : w.freemap d with
    | false => exact h.sound.exist d ⟨hlt, hbit⟩
    | true =>
      have hback : (∃ c, P c ∧ mapped w c = d ∧ mapped w c ≠ 0) ∨ (d = w.indirect ∧ w'.indirect ≠ w.indirect) := by
        by_contra hnot
        rw [(hfreemap d).mpr ⟨hbit, hnot⟩] at hclear
        cases hclear
      obtain ⟨c, -, rfl, hne⟩ | ⟨rfl, hchanged⟩ := hback
      · exact ⟨Nat.pos_of_ne_zero hne, (h.sound.held c hne).1⟩
      · have hne := (hindirect.resolve_left hchanged).2
        exact ⟨Nat.pos_of_ne_zero hne, (h.sound.heldIndirect hne).1⟩
  · rw [hkept.nblocks, hkept.dBlocks]
    exact h.sound.device
  · rw [hkept.dBlocks]
    exact h.sound.words
  · intro c hc
    obtain ⟨hP, hsame⟩ := hpresent c hc
    rw [hsame] at hc ⊢
    obtain ⟨hlt, hbit⟩ := h.sound.held c hc
    rw [Held, hkept.nblocks, hfreemap]
    refine ⟨hlt, hbit, ?_⟩
    rintro (⟨c', hP', heq, hne⟩ | ⟨heq, -⟩)
    · rw [h.sound.once c' c heq hne] at hP'
      exact hP hP'
    · exact h.sound.apart c hc heq
  · intro hne
    have hsame := hpart hne
    rw [hsame] at hne
    obtain ⟨hlt, hbit⟩ := h.sound.heldIndirect hne
    rw [hsame, Held, hkept.nblocks, hfreemap]
    refine ⟨hlt, hbit, ?_⟩
    rintro (⟨c, -, heq, hc⟩ | ⟨-, hchanged⟩)
    · exact h.sound.apart c hc heq
    · exact hchanged hsame
  · intro c c' heq hc
    have hc' : mapped w' c' ≠ 0 := by rwa [← heq]
    have hsame := (hpresent c hc).2
    rw [hsame, (hpresent c' hc').2] at heq
    rw [hsame] at hc
    exact h.sound.once c c' heq hc
  · intro c hc
    have hsame := (hpresent c hc).2
    rw [hsame] at hc ⊢
    by_cases hzero : w'.indirect = 0
    · rwa [hzero]
    · rw [hpart hzero]
      exact h.sound.apart c hc
  · rw [hkept.nblocks, hkept.nbits]
    exact h.bits
  · intro c hc hne
    rw [← Bool.not_eq_true, hfreemap]
    exact fun hused => hused.2 (.inl ⟨c, hc, rfl, hne⟩)
  · intro d hd
    rw [← Bool.not_eq_true, hfreemap, hd]
    exact fun hused => Bool.false_ne_true hused.1
  · intro c hc
    unfold blockData
    rw [hstays c hc]
    by_cases hzero : mapped w c = 0
    · rw [if_pos hzero, if_pos hzero]
    · rw [if_neg hzero, if_neg hzero, hdisk _ (h.sound.apart c hzero)]
  · intro e he
    obtain ⟨hbit, hblocks, hind⟩ := he
    have hpos := foreign_pos ⟨hbit, hblocks, hind⟩
    refine ⟨⟨?_, ?_, ?_⟩, hdisk e hind.symm⟩
    · rw [hfreemap]
      refine ⟨hbit, ?_⟩
      rintro (⟨c, -, heq, -⟩ | ⟨heq, -⟩)
      · exact hblocks c heq
      · exact hind heq.symm
    · intro c
      obtain hzero | hsame := hkeeps c
      · rw [hzero]
        exact hpos.symm
      · rw [hsame]
        exact hblocks c
    · by_cases hzero : w'.indirect = 0
      · rw [hzero]
        exact hpos.symm
      · rwa [hpart hzero]

/-- The first part of `sfs_itrunc`. -/
theorem directLoop_discards (h : Mounted w) : ∃ w', directLoop b SFS_NDIRECT 0 w = .ok w' ∧
    Discards (fun c => c < SFS_NDIRECT ∧ b ≤ c) w w' ∧ w'.indirect = w.indirect := by
  have hdirect : ∀ c < SFS_NDIRECT, w.direct c = mapped w c := fun c hc => (mapped_direct hc).symm
  have htable : Table SFS_NDIRECT w.direct w := by
    constructor
    · intro c hc hne
      rw [hdirect c hc] at hne ⊢
      obtain ⟨hlt, hbit⟩ := h.sound.held c hne
      exact ⟨hbit, Nat.lt_of_lt_of_le hlt h.bits⟩
    · intro c hc c' hc' heq hne
      rw [hdirect c hc] at heq hne
      rw [hdirect c' hc'] at heq
      exact h.sound.once c c' heq hne
  obtain ⟨w', hloop, hfrees, hall⟩ := directLoop_frees (b := b) (i := 0) htable (Nat.le_of_eq (Nat.zero_add _))
  have hbeyond : ∀ c, ¬c < SFS_NDIRECT → mapped w' c = mapped w c := by
    intro c hc
    unfold mapped
    rw [if_neg hc, if_neg hc, hfrees.disk, hfrees.indirect]
  refine ⟨w', hloop, discards_of h hfrees.kept ?_ ?_ ?_ ?_ (.inl hfrees.indirect), hfrees.indirect⟩
  · intro d
    have hiff : Gone (fun k => b ≤ k) w.direct 0 SFS_NDIRECT d ↔
        (∃ c, (c < SFS_NDIRECT ∧ b ≤ c) ∧ mapped w c = d ∧ mapped w c ≠ 0) ∨
          (d = w.indirect ∧ w'.indirect ≠ w.indirect) := by
      constructor
      · rintro ⟨k, -, hlt, hb, hk, hne⟩
        rw [Nat.zero_add] at hlt
        rw [hdirect k hlt] at hk hne
        exact .inl ⟨k, ⟨hlt, hb⟩, hk, hne⟩
      · rintro (⟨c, ⟨hlt, hb⟩, hc, hne⟩ | ⟨-, hchanged⟩)
        · rw [← hdirect c hlt] at hc hne
          exact ⟨c, Nat.zero_le c, by rwa [Nat.zero_add], hb, hc, hne⟩
        · exact absurd hfrees.indirect hchanged
    rw [hfrees.freemap, hiff]
  · rintro c ⟨hlt, hb⟩
    rw [mapped_direct hlt, hall, if_pos ⟨Nat.zero_le c, by omega, hb⟩]
  · intro c hc
    by_cases hlt : c < SFS_NDIRECT
    · rw [mapped_direct hlt, mapped_direct hlt, hall, if_neg (fun hin => hc ⟨hlt, hin.2.2⟩)]
    · exact hbeyond c hlt
  · intro e _
    rw [hfrees.disk]

/-- The entries of an indirect block that the code discards. -/
def PastIndirect (b c : ℕ) : Prop := SFS_NDIRECT ≤ c ∧ b < c

theorem mapped_beyond (hc : maxBlocks ≤ c) : mapped w c = 0 := by
  have hdirect : ¬c < SFS_NDIRECT := by
    unfold maxBlocks at hc
    omega
  rw [mapped, if_neg hdirect, if_neg (Nat.not_lt.mpr hc)]

/-- A block that is not one of the inode's is an entry of the indirect block, or past the largest file. -/
theorem indirect_cases (hc : SFS_NDIRECT ≤ c) : (∃ k < SFS_DBPERIDB, c = SFS_NDIRECT + k) ∨ maxBlocks ≤ c := by
  by_cases hlt : c < maxBlocks
  · refine .inl ⟨c - SFS_NDIRECT, ?_, by omega⟩
    unfold maxBlocks SFS_NINDIRECT at hlt
    omega
  · exact .inr (Nat.not_lt.mp hlt)

theorem indirectTrunc_skips (h : Mounted w) (hlook : ¬(b < SFS_NDIRECT + SFS_DBPERIDB - 1 ∧ w.indirect ≠ 0)) :
    Discards (PastIndirect b) w w := by
  have hnone : ∀ c, PastIndirect b c → mapped w c = 0 := by
    rintro c ⟨hc, hb⟩
    obtain ⟨k, hk, rfl⟩ | hbig := indirect_cases hc
    · by_cases hzero : w.indirect = 0
      · exact mapped_none hk hzero
      · exact absurd ⟨by omega, hzero⟩ hlook
    · exact mapped_beyond hbig
  refine discards_of h (Kept.refl w) ?_ hnone (fun _ _ => rfl) (fun _ _ => rfl) (.inl rfl)
  intro d
  constructor
  · refine fun hused => ⟨hused, ?_⟩
    rintro (⟨c, hc, -, hne⟩ | ⟨-, hchanged⟩)
    · exact hne (hnone c hc)
    · exact hchanged rfl
  · exact fun hused => hused.1

theorem indirect_table (h : Mounted w) (hindirect : w.indirect ≠ 0) :
    Table SFS_DBPERIDB (getNumber (w.disk w.indirect)) w := by
  constructor
  · intro k hk hne
    rw [← mapped_indirect hk hindirect] at hne ⊢
    obtain ⟨hlt, hbit⟩ := h.sound.held _ hne
    exact ⟨hbit, Nat.lt_of_lt_of_le hlt h.bits⟩
  · intro k hk l hl heq hne
    rw [← mapped_indirect hk hindirect] at heq hne
    rw [← mapped_indirect hl hindirect] at heq
    exact Nat.add_left_cancel (h.sound.once _ _ heq hne)

/-- The entries of the indirect block that have been discarded, and what is in use then. -/
theorem scanned_discards {w₂ : World} (h : Mounted w) (hindirect : w.indirect ≠ 0)
    (hscan : Scanned b 0 SFS_DBPERIDB ⟨w.disk w.indirect, false, false⟩ s) (hkept : Kept w w₂)
    (hdirect : w₂.direct = w.direct)
    (hfreemap : ∀ d, w₂.freemap d = true ↔ (w.freemap d = true ∧
      ¬Gone (fun k => b < SFS_NDIRECT + k) (getNumber (w.disk w.indirect)) 0 SFS_DBPERIDB d) ∧
      ¬(d = w.indirect ∧ w₂.indirect ≠ w.indirect))
    (hnumbers : ∀ k < SFS_DBPERIDB, mapped w₂ (SFS_NDIRECT + k) = getNumber s.idbuf k)
    (hdisk : ∀ e, e ≠ w.indirect → w₂.disk e = w.disk e) (hback : w₂.indirect = w.indirect ∨ w₂.indirect = 0) :
    Discards (PastIndirect b) w w₂ := by
  have hentry : ∀ k < SFS_DBPERIDB, mapped w₂ (SFS_NDIRECT + k) =
      if b < SFS_NDIRECT + k then 0 else mapped w (SFS_NDIRECT + k) := by
    intro k hk
    rw [hnumbers k hk, hscan.entries, mapped_indirect hk hindirect]
    by_cases hb : b < SFS_NDIRECT + k
    · rw [if_pos hb, if_pos ⟨Nat.zero_le k, by omega, hb⟩]
    · rw [if_neg hb, if_neg (fun hin => hb hin.2.2)]
  refine discards_of h hkept ?_ ?_ ?_ hdisk (hback.imp_right fun h0 => ⟨h0, hindirect⟩)
  · intro d
    have hiff : Gone (fun k => b < SFS_NDIRECT + k) (getNumber (w.disk w.indirect)) 0 SFS_DBPERIDB d ↔
        ∃ c, PastIndirect b c ∧ mapped w c = d ∧ mapped w c ≠ 0 := by
      constructor
      · rintro ⟨k, -, hlt, hb, hk, hne⟩
        rw [Nat.zero_add] at hlt
        rw [← mapped_indirect hlt hindirect] at hk hne
        exact ⟨SFS_NDIRECT + k, ⟨Nat.le_add_right _ _, hb⟩, hk, hne⟩
      · rintro ⟨c, ⟨hc, hb⟩, hcd, hne⟩
        obtain ⟨k, hk, rfl⟩ | hbig := indirect_cases hc
        · rw [mapped_indirect hk hindirect] at hcd hne
          exact ⟨k, Nat.zero_le k, by omega, hb, hcd, hne⟩
        · exact absurd (mapped_beyond hbig) hne
    rw [hfreemap, hiff, not_or, and_assoc]
  · rintro c ⟨hc, hb⟩
    obtain ⟨k, hk, rfl⟩ | hbig := indirect_cases hc
    · rw [hentry k hk, if_pos hb]
    · exact mapped_beyond hbig
  · intro c hc
    by_cases hlt : c < SFS_NDIRECT
    · rw [mapped_direct hlt, mapped_direct hlt, hdirect]
    · obtain ⟨k, hk, rfl⟩ | hbig := indirect_cases (Nat.not_lt.mp hlt)
      · rw [hentry k hk, if_neg (fun hb => hc ⟨Nat.not_lt.mp hlt, hb⟩)]
      · rw [mapped_beyond hbig, mapped_beyond hbig]

/-- Whether an entry is left. -/
theorem Scanned.nonzero_iff {w₂ : World} {idbuf : Block} (hscan : Scanned b 0 SFS_DBPERIDB ⟨idbuf, false, false⟩ s)
    (hnumbers : ∀ k < SFS_DBPERIDB, mapped w₂ (SFS_NDIRECT + k) = getNumber s.idbuf k) :
    s.hasnonzero = false ↔ ∀ c, SFS_NDIRECT ≤ c → mapped w₂ c = 0 := by
  rw [← Bool.not_eq_true, hscan.nonzero]
  constructor
  · intro hnone c hc
    obtain ⟨k, hk, rfl⟩ | hbig := indirect_cases hc
    · rw [hnumbers k hk]
      by_contra hne
      exact hnone (.inr ⟨k, Nat.zero_le k, by omega, hne⟩)
    · exact mapped_beyond hbig
  · rintro hzero (hfalse | ⟨k, -, hlt, hne⟩)
    · cases hfalse
    · rw [Nat.zero_add] at hlt
      rw [← hnumbers k hlt] at hne
      exact hne (hzero _ (Nat.le_add_right _ _))

/-- The second part of `sfs_itrunc`. -/
theorem indirectTrunc_discards (h : Mounted w) : ∃ w', indirectTrunc b w = .ok w' ∧ Discards (PastIndirect b) w w' ∧
    (w'.indirect = w.indirect ∨ w'.indirect = 0 ∧ w.indirect ≠ 0 ∧ w'.freemap w.indirect = false) ∧
    (w'.indirect = 0 ↔ w.indirect = 0 ∨
      (b < SFS_NDIRECT + SFS_DBPERIDB - 1 ∧ ∀ c, SFS_NDIRECT ≤ c → mapped w' c = 0)) := by
  by_cases hlook : b < SFS_NDIRECT + SFS_DBPERIDB - 1 ∧ w.indirect ≠ 0
  · have hindirect := hlook.2
    obtain ⟨hidblock, hidbit⟩ := h.sound.heldIndirect hindirect
    obtain ⟨s, w₁, hloop, hfrees, hdirect, hscan⟩ := indirectLoop_frees (b := b) (j := 0)
      (s := ⟨w.disk w.indirect, false, false⟩) (indirect_table h hindirect) (Nat.le_of_eq (Nat.zero_add _))
    have hread := sfsReadblock_ok h.sound hidblock
    have hkeeps : w₁.freemap w.indirect = true := by
      rw [hfrees.freemap]
      refine ⟨hidbit, ?_⟩
      rintro ⟨k, -, hlt, -, hk, hne⟩
      rw [Nat.zero_add] at hlt
      rw [← mapped_indirect hlt hindirect] at hk hne
      exact h.sound.apart _ hne hk
    have hrun : indirectTrunc b w = indirectDone w.indirect s w₁ := by
      simp only [indirectTrunc, if_pos hlook, hread, hloop]
    by_cases hnone : s.hasnonzero = false
    · obtain ⟨w₂, hfree, hfrees₂, hdirect₂⟩ := sfsBfree_frees hkeeps
        (by rw [hfrees.kept.nbits]; exact Nat.lt_of_lt_of_le hidblock h.bits)
      let w' : World := { w₂ with indirect := 0 }
      have hzero : ∀ k < SFS_DBPERIDB, getNumber s.idbuf k = 0 := by
        intro k hk
        by_contra hne
        rw [← Bool.not_eq_true, hscan.nonzero] at hnone
        exact hnone (.inr ⟨k, Nat.zero_le k, by omega, hne⟩)
      have hnumbers : ∀ k < SFS_DBPERIDB, mapped w' (SFS_NDIRECT + k) = getNumber s.idbuf k := by
        intro k hk
        rw [hzero k hk]
        exact mapped_none hk rfl
      have hkept : Kept w w' := by
        obtain ⟨hsize, hnbits, hnblocks, hdevice, huser⟩ := hfrees.kept.trans hfrees₂.kept
        exact ⟨hsize, hnbits, hnblocks, hdevice, huser⟩
      have hbits : ∀ d, w'.freemap d = true ↔ (w.freemap d = true ∧
          ¬Gone (fun k => b < SFS_NDIRECT + k) (getNumber (w.disk w.indirect)) 0 SFS_DBPERIDB d) ∧
          ¬(d = w.indirect ∧ w'.indirect ≠ w.indirect) := by
        intro d
        show w₂.freemap d = true ↔ _
        rw [hfrees₂.freemap, hfrees.freemap]
        have hchanged : w'.indirect ≠ w.indirect := hindirect.symm
        simp [hchanged]
      refine ⟨w', ?_, scanned_discards h hindirect hscan hkept (hdirect₂.trans hdirect) hbits hnumbers ?_ (.inr rfl),
        .inr ⟨rfl, hindirect, ?_⟩, ?_⟩
      · rw [hrun]
        simp only [indirectDone, hnone, Bool.not_false, if_true, hfree]
        rfl
      · intro e _
        show w₂.disk e = w.disk e
        rw [hfrees₂.disk, hfrees.disk]
      · rw [← Bool.not_eq_true, hbits]
        exact fun hused => hused.2 ⟨rfl, hindirect.symm⟩
      · exact ⟨fun _ => .inr ⟨hlook.1, (hscan.nonzero_iff hnumbers).mp hnone⟩, fun _ => rfl⟩
    · -- whether it is written back or not, the block on the disk is the one in the buffer
      have hdone : ∃ w', indirectDone w.indirect s w₁ = .ok w' ∧ Kept w₁ w' ∧ w'.freemap = w₁.freemap ∧
          w'.direct = w₁.direct ∧ w'.indirect = w₁.indirect ∧ w'.disk w.indirect = s.idbuf ∧
          ∀ e, e ≠ w.indirect → w'.disk e = w₁.disk e := by
        have hsome : s.hasnonzero = true := by rwa [Bool.not_eq_false] at hnone
        by_cases hdirty : s.iddirty = true
        · have hdevice := h.sound.device
          have hwords := h.sound.words
          have hsame := hfrees.kept.dBlocks
          have hwrite : sfsWriteblock w.indirect s.idbuf w₁ = .ok { w₁ with disk := update w₁.disk w.indirect s.idbuf } :=
            if_neg (by omega)
          refine ⟨{ w₁ with disk := update w₁.disk w.indirect s.idbuf }, ?_, ⟨rfl, rfl, rfl, rfl, rfl⟩, rfl, rfl, rfl,
            ?_, ?_⟩
          · simp only [indirectDone, hsome, hdirty, Bool.not_true, Bool.false_eq_true, if_false, if_true]
            exact hwrite
          · exact update_self _ _ _
          · intro e he
            exact update_of_ne he _ _
        · have hclean : s.iddirty = false := by rwa [Bool.not_eq_true] at hdirty
          refine ⟨w₁, ?_, Kept.refl w₁, rfl, rfl, rfl, ?_, fun _ _ => rfl⟩
          · simp only [indirectDone, hsome, hclean, Bool.not_true, Bool.false_eq_true, if_false]
          · rw [hfrees.disk, (hscan.clean hclean).2]
      obtain ⟨w', hend, hkept, hbits, hdirect', hind, hbuf, hothers⟩ := hdone
      have hsame : w'.indirect = w.indirect := hind.trans hfrees.indirect
      have hnumbers : ∀ k < SFS_DBPERIDB, mapped w' (SFS_NDIRECT + k) = getNumber s.idbuf k := by
        intro k hk
        rw [mapped_indirect hk (by rwa [hsame]), hsame, hbuf]
      refine ⟨w', hrun.trans hend, scanned_discards h hindirect hscan (hfrees.kept.trans hkept) (hdirect'.trans hdirect)
        ?_ hnumbers ?_ (.inl hsame), .inl hsame, ?_⟩
      · intro d
        rw [hbits, hfrees.freemap, hsame]
        simp
      · intro e he
        rw [hothers e he, hfrees.disk]
      · rw [hsame]
        constructor
        · exact fun h0 => absurd h0 hindirect
        · rintro (h0 | ⟨-, hzero⟩)
          · exact h0
          · exact absurd ((hscan.nonzero_iff hnumbers).mpr hzero) hnone
  · refine ⟨w, if_neg hlook, indirectTrunc_skips h hlook, .inl rfl, ?_⟩
    constructor
    · exact fun h0 => .inl h0
    · rintro (h0 | ⟨hlt, -⟩)
      · exact h0
      · by_contra hne
        exact hlook ⟨hlt, hne⟩

/-- What becomes of the indirect block. -/
structure IndirectCut (b : ℕ) (w w' : World) : Prop where
  freed : w'.indirect = w.indirect ∨ w'.indirect = 0 ∧ w.indirect ≠ 0 ∧ w'.freemap w.indirect = false
  none : w'.indirect = 0 ↔ w.indirect = 0 ∨
    (b < SFS_NDIRECT + SFS_DBPERIDB - 1 ∧ ∀ c, SFS_NDIRECT ≤ c → mapped w' c = 0)

/-- What `sfs_itrunc` does, for any length. -/
theorem sfsItrunc_cuts (h : Mounted w) (len : ℕ) : ∃ w', sfsItrunc len w = .ok { w' with size := len % 2^32 } ∧
    Discards (Past (blocksOf len % 2^32)) w w' ∧ IndirectCut (blocksOf len % 2^32) w w' := by
  generalize hb : blocksOf len % 2^32 = b
  obtain ⟨w₁, hdirect, hdiscards, hind⟩ := directLoop_discards (b := b) h
  obtain ⟨w₂, hindirect, hdiscards', hfreed, hnone⟩ := indirectTrunc_discards (b := b) hdiscards.mounted
  refine ⟨w₂, ?_, (hdiscards.trans hdiscards').congr fun c => ?_, ?_, ?_⟩
  · simp only [sfsItrunc, hb, hdirect, hindirect]
  · unfold Past PastIndirect
    by_cases hc : c < SFS_NDIRECT
    · rw [if_pos hc]
      omega
    · rw [if_neg hc]
      omega
  · rwa [← hind]
  · rwa [← hind]

/-- Exactly the blocks from the length on are gone, the others are as they were, and the
indirect block is gone iff none of its entries is left. -/
structure Truncated (len : ℕ) (w w' : World) : Prop where
  size : w'.size = len
  cut : ∀ c, blocksOf len ≤ c → mapped w' c = 0 ∧ (mapped w c ≠ 0 → w'.freemap (mapped w c) = false)
  kept : ∀ c < blocksOf len, mapped w' c = mapped w c ∧ blockData w' c = blockData w c
  indirect : w.indirect ≠ 0 → ((w'.indirect = 0 ∧ w'.freemap w.indirect = false) ↔
    ∀ c, SFS_NDIRECT ≤ c → c < blocksOf len → mapped w c = 0)

/-- There is no block at the length, if the indirect block would have it, and an
indirect block without entries is not kept because the length is past those before its last. -/
structure CutsWell (len : ℕ) (w : World) : Prop where
  edge : SFS_NDIRECT ≤ blocksOf len → mapped w (blocksOf len) = 0
  whole : SFS_NDIRECT + SFS_DBPERIDB - 1 ≤ blocksOf len → w.indirect = 0 ∨
    ∃ c, SFS_NDIRECT ≤ c ∧ c < blocksOf len ∧ mapped w c ≠ 0

theorem truncated_iff {w₂ : World} (hdiscards : Discards (Past (blocksOf len)) w w₂)
    (hind : IndirectCut (blocksOf len) w w₂) : Truncated len w { w₂ with size := len } ↔ CutsWell len w := by
  have hpast : ∀ c, Past (blocksOf len) c → blocksOf len ≤ c := by
    intro c hc
    unfold Past at hc
    split_ifs at hc <;> omega
  have hbelow : ∀ c < blocksOf len, mapped w₂ c = mapped w c :=
    fun c hc => hdiscards.stays c fun hp => absurd (hpast c hp) (Nat.not_le.mpr hc)
  have hedge : SFS_NDIRECT ≤ blocksOf len → mapped w₂ (blocksOf len) = mapped w (blocksOf len) := by
    intro hle
    refine hdiscards.stays _ ?_
    unfold Past
    rw [if_neg (Nat.not_lt.mpr hle)]
    exact Nat.lt_irrefl _
  constructor
  · intro ht
    constructor
    · intro hle
      rw [← hedge hle]
      exact (ht.cut _ (Nat.le_refl _)).1
    · intro hle
      by_cases hzero : w.indirect = 0
      · exact .inl hzero
      · right
        by_contra hnone
        have hall : ∀ c, SFS_NDIRECT ≤ c → c < blocksOf len → mapped w c = 0 := by
          intro c hc hlt
          by_contra hne
          exact hnone ⟨c, hc, hlt, hne⟩
        obtain hsame | ⟨hlt, -⟩ := hind.none.mp ((ht.indirect hzero).mpr hall).1
        · exact hzero hsame
        · omega
  · intro hcuts
    have hcut : ∀ c, blocksOf len ≤ c → mapped w₂ c = 0 ∧ (mapped w c ≠ 0 → w₂.freemap (mapped w c) = false) := by
      intro c hc
      by_cases hp : Past (blocksOf len) c
      · exact ⟨hdiscards.gone c hp, hdiscards.freed c hp⟩
      · have heq : c = blocksOf len ∧ SFS_NDIRECT ≤ blocksOf len := by
          unfold Past at hp
          split_ifs at hp <;> omega
        rw [heq.1, hedge heq.2, hcuts.edge heq.2]
        exact ⟨rfl, fun hne => absurd rfl hne⟩
    refine ⟨rfl, hcut, ?_, ?_⟩
    · intro c hc
      exact ⟨hbelow c hc, hdiscards.data c fun hp => absurd (hpast c hp) (Nat.not_le.mpr hc)⟩
    · intro hne
      show (w₂.indirect = 0 ∧ w₂.freemap w.indirect = false) ↔ _
      constructor
      · rintro ⟨hzero, -⟩ c hc hlt
        obtain hnone | ⟨-, hall⟩ := hind.none.mp hzero
        · exact absurd hnone hne
        · rw [← hbelow c hlt]
          exact hall c hc
      · intro hall
        have hshort : blocksOf len < SFS_NDIRECT + SFS_DBPERIDB - 1 := by
          by_contra hlong
          obtain hnone | ⟨c, hc, hlt, hmapped⟩ := hcuts.whole (Nat.not_lt.mp hlong)
          · exact hne hnone
          · exact hmapped (hall c hc hlt)
        have hzero : w₂.indirect = 0 := by
          refine hind.none.mpr (.inr ⟨hshort, fun c hc => ?_⟩)
          by_cases hlt : c < blocksOf len
          · rw [hbelow c hlt]
            exact hall c hc hlt
          · exact (hcut c (Nat.not_lt.mp hlt)).1
        obtain hsame | ⟨-, -, hfree⟩ := hind.freed
        · rw [hsame] at hzero
          exact absurd hzero hne
        · exact ⟨hzero, hfree⟩

/-- What `sfs_itrunc` leaves of a file is right iff there is nothing at the edge that it overlooks. -/
theorem sfsItrunc_truncates_iff (w : World) (len : ℕ) (h : Mounted w) (hlen : len ≤ SFS_BLOCKSIZE * maxBlocks) :
    ∃ w', sfsItrunc len w = .ok w' ∧ (Truncated len w w' ↔ CutsWell len w) := by
  obtain ⟨w', hrun, hdiscards, hind⟩ := sfsItrunc_cuts h len
  have hlarge : SFS_BLOCKSIZE * maxBlocks = 73216 := by decide
  have hsize : len % 2^32 = len := Nat.mod_eq_of_lt (by omega)
  have hblocks : blocksOf len % 2^32 = blocksOf len := by
    unfold blocksOf SFS_BLOCKSIZE
    omega
  rw [hblocks] at hdiscards hind
  rw [hsize] at hrun
  exact ⟨_, hrun, truncated_iff hdiscards hind⟩

/-- A file with a hole, and after it one block that is full of sevens: the first entry of its indirect block. -/
def sparse : World where
  size := 8192
  direct := fun _ => 0
  indirect := 1
  freemap := fun _ => true
  nbits := 4096
  nblocks := 3
  disk := fun d => if d = 1 then putNumber zeros 0 2 else if d = 2 then fun _ => 7 else zeros
  dBlocks := 3
  user := fun a => if 4096 ≤ a ∧ a < 8192 then some 1 else none

theorem sparse_mapped (c : ℕ) : mapped sparse c = if c = 15 then 2 else 0 := by
  by_cases hc : c < SFS_NDIRECT
  · have hne : c ≠ 15 := by
      unfold SFS_NDIRECT at hc
      omega
    rw [mapped_direct hc, if_neg hne]
    rfl
  · obtain ⟨k, hk, rfl⟩ | hbig := indirect_cases (Nat.not_lt.mp hc)
    · rw [mapped_indirect hk (show sparse.indirect ≠ 0 by decide)]
      show getNumber (putNumber zeros 0 2) k = _
      rw [getNumber_put zeros 0 k (by decide), getNumber_zeros]
      have hiff : k = 0 ↔ SFS_NDIRECT + k = 15 := by
        unfold SFS_NDIRECT
        omega
      simp only [hiff]
    · have hne : c ≠ 15 := by
        unfold maxBlocks SFS_NDIRECT SFS_NINDIRECT SFS_DBPERIDB at hbig
        omega
      rw [mapped_beyond hbig, if_neg hne]

theorem sparse_mounted : Mounted sparse := by
  have hmapped : ∀ c, mapped sparse c ≠ 0 → c = 15 ∧ mapped sparse c = 2 := by
    intro c hc
    rw [sparse_mapped] at hc ⊢
    split_ifs at hc ⊢ with heq
    · exact ⟨heq, rfl⟩
    · exact absurd rfl hc
  refine ⟨⟨by decide, ?_, by decide, by decide, ?_, fun _ => ⟨by decide, rfl⟩, ?_, ?_⟩, by decide⟩
  · rintro d ⟨-, hclear⟩
    cases hclear
  · intro c hc
    rw [(hmapped c hc).2]
    exact ⟨by decide, rfl⟩
  · intro c c' heq hc
    have hc' : mapped sparse c' ≠ 0 := by rwa [← heq]
    rw [(hmapped c hc).1, (hmapped c' hc').1]
  · intro c hc
    rw [(hmapped c hc).2]
    decide

/-- Cut off altogether, it has no blocks. -/
theorem sparse_emptied : ∃ w', sfsItrunc 0 sparse = .ok w' ∧ Truncated 0 sparse w' := by
  obtain ⟨w', hrun, hiff⟩ := sfsItrunc_truncates_iff sparse 0 sparse_mounted (by decide)
  exact ⟨w', hrun, hiff.mpr ⟨fun h => absurd h (by decide), fun h => absurd h (by decide)⟩⟩

/-- Cut off at the beginning of the block, it keeps it. -/
theorem sparse_keeps : ∃ w', sfsItrunc 7680 sparse = .ok w' ∧ mapped w' 15 = 2 ∧ ¬Truncated 7680 sparse w' := by
  obtain ⟨w', hrun, hdiscards, -⟩ := sfsItrunc_cuts sparse_mounted 7680
  have hstays : mapped w' 15 = 2 := by
    rw [hdiscards.stays 15 (by decide), sparse_mapped, if_pos rfl]
  refine ⟨_, hrun, hstays, ?_⟩
  intro ht
  have hzero : mapped w' 15 = 0 := (ht.cut 15 (by decide)).1
  rw [hstays] at hzero
  cases hzero

end OS161.SfsTruncate
