import OS161.SfsOffsets
import OS161.SfsRead

/-!
# A whole block at once

`sfs_blockio` moves a block between the caller's memory and the disk directly,
where `sfs_partialio` goes through a buffer of its own. Its offset on the disk
has 32 bits: from block 2^23 on it is the offset of another block.
-/

set_option autoImplicit false

namespace OS161.SfsBlockio

open Function OS161.Vfs OS161.CopyInOut OS161.Sfs OS161.SfsIo OS161.SfsPieces OS161.SfsWrite OS161.SfsRead OS161.SfsOffsets
open OS161.SharedDescriptor (Rw)

/-- The same volume and memory, by the bytes of the blocks. -/
structure Same (w w' : World) : Prop where
  others : w' = { w with disk := w'.disk }
  disk : ∀ d, ∀ j < SFS_BLOCKSIZE, w'.disk d j = w.disk d j

/-- The same answer, the same transfer left to do and the same volume and memory. -/
def Agrees (r r' : IoResult) : Prop := ∃ e u w w', r = .ok (e, u, w) ∧ r' = .ok (e, u, w') ∧ Same w w'

/-- The offset of block `d` has not wrapped around, or it makes no difference: the
block that it has become has the same bytes, and a write would put them there. -/
def InPlace (u : Uio) (d : ℕ) (w : World) : Prop :=
  d < 2^23 ∨ ∀ j < SFS_BLOCKSIZE, w.disk (d % 2^23) j = w.disk d j ∧
    (u.rw = .write → w.user (u.base + j) = some (w.disk d j))

/-- The block that `sfs_bmap` has found. -/
structure Found (doalloc : Bool) (d : ℕ) (w w' : World) : Prop where
  sound : WellFormed w'
  user : w'.user = w.user
  inside : d ≠ 0 → d < w'.nblocks
  nonzero : doalloc = true → d ≠ 0

variable {w w' w₁ : World} {c d base : ℕ} {u : Uio} {doalloc : Bool} {m m' : UserMemory} {data data' : ℕ → UInt8}

theorem sfsBmap_found (h : WellFormed w) (hbmap : sfsBmap c doalloc w = .ok (.ok d, w')) : Found doalloc d w w' := by
  have hc := sfsBmap_ok hbmap
  cases doalloc with
  | false =>
    rw [sfsBmap_read h hc] at hbmap
    cases hbmap
    exact ⟨h, rfl, fun hne => (h.held c hne).1, fun hfalse => by cases hfalse⟩
  | true =>
    have hspec := sfsBmap_spec h c
    rw [hbmap] at hspec
    cases hspec with
    | maps _ _ _ _ hm =>
      refine ⟨hm.grown.sound, hm.grown.kept.user, fun _ => ?_, fun _ => hm.nonzero⟩
      have hself : mapped w' c = d := by rw [hm.mapped, update_self]
      have hheld := hm.grown.sound.held c
      rw [hself] at hheld
      exact (hheld hm.nonzero).1

/-- Two blocks of the caller's memory are the same iff the bytes put there are. -/
theorem put_eq_iff {len : ℕ} (h : Put m m' base len data) {m'' : UserMemory} (h' : Put m m'' base len data') :
    m'' = m' ↔ ∀ j < len, data' j = data j := by
  constructor
  · rintro rfl j hj
    have hbyte := h'.bytes j hj
    rw [h.bytes j hj, Option.some.injEq] at hbyte
    exact hbyte.symm
  · intro hsame
    funext a
    by_cases ha : base ≤ a ∧ a < base+len
    · obtain ⟨j, rfl⟩ := Nat.exists_eq_add_of_le ha.1
      rw [h.bytes j (by omega), h'.bytes j (by omega), hsame j (by omega)]
    · rw [h.others a ha, h'.others a ha]

theorem same_user : Same { w with user := m } { w with user := m' } ↔ m' = m := by
  constructor
  · rintro ⟨hothers, -⟩
    exact congrArg World.user hothers
  · rintro rfl
    exact ⟨rfl, fun _ _ _ => rfl⟩

/-- The block is put in the caller's memory by way of the buffer. -/
theorem partialio_read (h : WellFormed w₁) (hd : d ≠ 0 → d < w₁.nblocks) (hrw : u.rw = .read)
    (hresid : SFS_BLOCKSIZE ≤ u.resid) (hm : Readable w₁.user u.base SFS_BLOCKSIZE)
    (hbmap : sfsBmap (fileblock u) (u.rw = .write) w = .ok (.ok d, w₁)) :
    ∃ m, sfsPartialio 0 SFS_BLOCKSIZE u w = .ok (none, u.advance SFS_BLOCKSIZE, { w₁ with user := m }) ∧
      Put w₁.user m u.base SFS_BLOCKSIZE (if d = 0 then zeros else w₁.disk d) := by
  have hload : loadBlock u.rw d w₁ = .ok (if d = 0 then zeros else w₁.disk d) := by
    rw [hrw, loadBlock]
    by_cases hzero : d = 0
    · rw [if_pos hzero, if_pos hzero]
      rfl
    · rw [if_neg hzero, if_neg hzero]
      exact sfsReadblock_ok h (hd hzero)
  have hnot : ¬u.rw = .write := by
    rw [hrw]
    decide
  obtain ⟨m, hmove, hput⟩ := uiomove_puts _ hrw hresid hm (fun j => (if d = 0 then zeros else w₁.disk d) (0+j))
  refine ⟨m, ?_, ?_⟩
  · rw [sfsPartialio, if_neg (by omega), hbmap]
    simp only [hload, hmove, if_neg hnot]
  · simpa only [Nat.zero_add] using hput

/-- Directly it is the one that its offset stands for. -/
theorem blockio_read (h : WellFormed w₁) (hd : d ≠ 0 → d < w₁.nblocks) (hrw : u.rw = .read)
    (hresid : SFS_BLOCKSIZE ≤ u.resid) (hm : Readable w₁.user u.base SFS_BLOCKSIZE)
    (hbmap : sfsBmap (fileblock u) (u.rw = .write) w = .ok (.ok d, w₁)) :
    ∃ m, sfsBlockio u w = .ok (none, u.advance SFS_BLOCKSIZE, { w₁ with user := m }) ∧
      Put w₁.user m u.base SFS_BLOCKSIZE (if d = 0 then zeros else w₁.disk (d % 2^23)) := by
  by_cases hzero : d = 0
  · obtain ⟨m, hmove, hput⟩ := uiomovezeros_puts hrw hresid hm
    refine ⟨m, ?_, by rwa [if_pos hzero]⟩
    rw [sfsBlockio, hbmap]
    simp only [if_pos hzero, if_pos hrw, hmove]
  · obtain ⟨m, hio, hput⟩ := lhdIo_reads h (hd hzero) hm
    refine ⟨m, ?_, by rwa [if_neg hzero]⟩
    rw [sfsBlockio, hbmap]
    simp only [if_neg hzero, if_neg (Nat.not_lt.mpr hresid), hrw, hio]
    simp only [Uio.advance, Except.ok.injEq, Prod.mk.injEq, Uio.mk.injEq, and_true, true_and, hrw]
    omega

theorem partialio_write (h : WellFormed w₁) (hd : d < w₁.nblocks) (hzero : d ≠ 0) (hrw : u.rw = .write)
    (hresid : SFS_BLOCKSIZE ≤ u.resid) (hbase : u.base < 2^32) (hm : Readable w₁.user u.base SFS_BLOCKSIZE)
    (hbmap : sfsBmap (fileblock u) (u.rw = .write) w = .ok (.ok d, w₁)) :
    ∃ data, sfsPartialio 0 SFS_BLOCKSIZE u w =
        .ok (none, u.advance SFS_BLOCKSIZE, { w₁ with disk := update w₁.disk d data }) ∧
      ∀ j < SFS_BLOCKSIZE, data j = given w₁ u.base j := by
  have hload : loadBlock u.rw d w₁ = .ok (w₁.disk d) := by
    rw [loadBlock, if_neg hzero]
    exact sfsReadblock_ok h hd
  obtain ⟨data, hmove, hdata⟩ := uiomove_moves _ hbase hrw hresid hm (fun j => w₁.disk d (0+j))
  refine ⟨data, ?_, fun j hj => (hdata j).trans (if_pos hj)⟩
  rw [sfsPartialio, if_neg (by omega), hbmap]
  simp only [hload, hmove, if_pos hrw, Nat.zero_le, if_true, Nat.sub_zero]
  have hwrite : sfsWriteblock d data w₁ = .ok { w₁ with disk := update w₁.disk d data } := sfsWriteblock_ok h hd data
  rw [show ({ w₁ with user := w₁.user } : World) = w₁ from rfl, show (fun i => data i) = data from rfl, hwrite]

theorem blockio_write (h : WellFormed w₁) (hd : d < w₁.nblocks) (hzero : d ≠ 0) (hrw : u.rw = .write)
    (hresid : SFS_BLOCKSIZE ≤ u.resid) (hbase : u.base < 2^32) (hm : Readable w₁.user u.base SFS_BLOCKSIZE)
    (hbmap : sfsBmap (fileblock u) (u.rw = .write) w = .ok (.ok d, w₁)) :
    ∃ data, sfsBlockio u w =
        .ok (none, u.advance SFS_BLOCKSIZE, { w₁ with disk := update w₁.disk (d % 2^23) data }) ∧
      ∀ j < SFS_BLOCKSIZE, data j = given w₁ u.base j := by
  obtain ⟨data, hmove, hdata⟩ := uiomove_moves (u := ⟨u.base, d * SFS_BLOCKSIZE % 2^32, SFS_BLOCKSIZE, .write⟩)
    LHD_SECTSIZE hbase rfl (Nat.le_refl _) hm zeros
  refine ⟨data, ?_, fun j hj => (hdata j).trans (if_pos hj)⟩
  have hio := lhdIo_one hd h u.base
  rw [hmove] at hio
  rw [sfsBlockio, hbmap]
  simp only [if_neg hzero, if_neg (Nat.not_lt.mpr hresid), hrw, hio]
  simp only [Uio.advance, Except.ok.injEq, Prod.mk.injEq, Uio.mk.injEq, and_true, true_and, hrw]
  unfold LHD_SECTSIZE SFS_BLOCKSIZE at *
  omega

theorem agrees_iff {e : Option Errno} : Agrees (.ok (e, u, w)) (.ok (e, u, w')) ↔ Same w w' := by
  constructor
  · rintro ⟨e', u', w₁, w₂, h, h', hsame⟩
    cases h
    cases h'
    exact hsame
  · intro hsame
    exact ⟨e, u, w, w', rfl, rfl, hsame⟩

/-- The same bytes in two different blocks leave the same volume iff both blocks had them. -/
theorem same_disk_iff {e : ℕ} (hne : d ≠ e) :
    Same { w with disk := update w.disk e data } { w with disk := update w.disk d data' } ↔
      ∀ j < SFS_BLOCKSIZE, w.disk e j = data j ∧ data' j = w.disk d j := by
  constructor
  · rintro ⟨-, hdisk⟩ j hj
    have hat := hdisk e j hj
    have hat' := hdisk d j hj
    simp only [update_self, update_of_ne hne, update_of_ne hne.symm] at hat hat'
    exact ⟨hat, hat'⟩
  · intro hbytes
    refine ⟨rfl, fun b j hj => ?_⟩
    obtain ⟨hat, hat'⟩ := hbytes j hj
    by_cases hb : b = d
    · subst hb
      simp only [update_self, update_of_ne hne]
      exact hat'
    · by_cases hb' : b = e
      · subst hb'
        simp only [update_self, update_of_ne hb]
        exact hat
      · simp only [update_of_ne hb, update_of_ne hb']

theorem readable_given {j len : ℕ} (hm : Readable w.user base len) (hj : j < len) :
    w.user (base+j) = some (given w base j) := by
  obtain ⟨b, hb⟩ := Option.ne_none_iff_exists'.mp (hm j hj).2
  rw [given, hb]
  rfl

theorem read_agrees_iff (hfound : Found (u.rw = .write) d w w₁) (hrw : u.rw = .read) (hresid : SFS_BLOCKSIZE ≤ u.resid)
    (hm : Readable w₁.user u.base SFS_BLOCKSIZE)
    (hbmap : sfsBmap (fileblock u) (u.rw = .write) w = .ok (.ok d, w₁)) :
    Agrees (sfsBlockio u w) (sfsPartialio 0 SFS_BLOCKSIZE u w) ↔ InPlace u d w₁ := by
  obtain ⟨m, hblock, hput⟩ := blockio_read hfound.sound hfound.inside hrw hresid hm hbmap
  obtain ⟨m', hpart, hput'⟩ := partialio_read hfound.sound hfound.inside hrw hresid hm hbmap
  have hnot : ¬u.rw = .write := by
    rw [hrw]
    decide
  rw [hblock, hpart, agrees_iff, same_user, put_eq_iff hput hput']
  by_cases hzero : d = 0
  · subst hzero
    exact ⟨fun _ => .inl (by decide), fun _ _ _ => rfl⟩
  · rw [if_neg hzero, if_neg hzero]
    constructor
    · intro hbytes
      exact .inr fun j hj => ⟨(hbytes j hj).symm, fun hwrite => absurd hwrite hnot⟩
    · rintro (hlow | hbytes) j hj
      · rw [Nat.mod_eq_of_lt hlow]
      · exact (hbytes j hj).1.symm

theorem write_agrees_iff (hfound : Found (u.rw = .write) d w w₁) (hrw : u.rw = .write) (hresid : SFS_BLOCKSIZE ≤ u.resid)
    (hbase : u.base < 2^32) (hm : Readable w₁.user u.base SFS_BLOCKSIZE)
    (hbmap : sfsBmap (fileblock u) (u.rw = .write) w = .ok (.ok d, w₁)) :
    Agrees (sfsBlockio u w) (sfsPartialio 0 SFS_BLOCKSIZE u w) ↔ InPlace u d w₁ := by
  have hzero : d ≠ 0 := hfound.nonzero (decide_eq_true hrw)
  have hd := hfound.inside hzero
  obtain ⟨data, hblock, hdata⟩ := blockio_write hfound.sound hd hzero hrw hresid hbase hm hbmap
  obtain ⟨data', hpart, hdata'⟩ := partialio_write hfound.sound hd hzero hrw hresid hbase hm hbmap
  rw [hblock, hpart, agrees_iff]
  by_cases hlow : d < 2^23
  · refine ⟨fun _ => .inl hlow, fun _ => ⟨rfl, fun b j hj => ?_⟩⟩
    rw [Nat.mod_eq_of_lt hlow]
    by_cases hb : b = d
    · subst hb
      simp only [update_self, hdata j hj, hdata' j hj]
    · simp only [update_of_ne hb]
  · have hne : d ≠ d % 2^23 := by omega
    rw [same_disk_iff hne]
    constructor
    · intro hbytes
      refine .inr fun j hj => ?_
      obtain ⟨hat, hat'⟩ := hbytes j hj
      rw [hdata j hj] at hat
      rw [hdata' j hj] at hat'
      exact ⟨hat.trans hat', fun _ => (readable_given hm hj).trans (congrArg some hat')⟩
    · rintro (hlow' | hbytes) j hj
      · exact absurd hlow' hlow
      · obtain ⟨hsame, hbyte⟩ := hbytes j hj
        have hgiven := hbyte hrw
        rw [readable_given hm hj, Option.some.injEq] at hgiven
        rw [hdata j hj, hdata' j hj, hsame, hgiven]
        exact ⟨rfl, rfl⟩

/-- The two ways to move a whole block do the same iff the block is in place on the disk. -/
theorem blockio_agrees_iff (u : Uio) (w w₁ : World) (d : ℕ) (h : WellFormed w) (hresid : SFS_BLOCKSIZE ≤ u.resid)
    (hbase : u.base < 2^32) (hm : Readable w.user u.base SFS_BLOCKSIZE)
    (hbmap : sfsBmap (fileblock u) (u.rw = .write) w = .ok (.ok d, w₁)) :
    Agrees (sfsBlockio u w) (sfsPartialio 0 SFS_BLOCKSIZE u w) ↔ InPlace u d w₁ := by
  have hfound := sfsBmap_found h hbmap
  rw [← hfound.user] at hm
  cases hrw : u.rw with
  | read => exact read_agrees_iff hfound hrw hresid hm hbmap
  | write => exact write_agrees_iff hfound hrw hresid hbase hm hbmap

/-- A volume whose last block, full of sevens, is the only one of the file. -/
def oneBlock (d : ℕ) : World where
  size := 512
  direct := fun c => if c = 0 then d else 0
  indirect := 0
  freemap := fun _ => true
  nbits := d+1
  nblocks := d+1
  disk := fun e => if e = d then fun _ => 7 else zeros
  dBlocks := d+1
  user := fun a => if 4096 ≤ a ∧ a < 8192 then some 1 else none

theorem oneBlock_mapped (d c : ℕ) : mapped (oneBlock d) c = if c = 0 then d else 0 := by
  unfold mapped oneBlock
  by_cases hc : c = 0
  · subst hc
    rfl
  · simp [hc]

theorem oneBlock_sound (hd : d+1 < 2^32) : WellFormed (oneBlock d) := by
  have hsize : 512 < 2^32 := by decide
  refine ⟨hsize, ?_, Nat.le_refl _, hd, ?_, fun h => absurd rfl h, ?_, ?_⟩
  · rintro e ⟨-, hclear⟩
    cases hclear
  · intro c hc
    rw [oneBlock_mapped] at hc ⊢
    split_ifs at hc ⊢
    · exact ⟨Nat.lt_succ_self d, rfl⟩
    · exact absurd rfl hc
  · intro c c' heq hc
    rw [oneBlock_mapped] at heq hc
    rw [oneBlock_mapped] at heq
    split_ifs at heq hc <;> omega
  · intro c hc
    exact hc

theorem oneBlock_readable (d : ℕ) : Readable (oneBlock d).user 4096 SFS_BLOCKSIZE := by
  intro j hj
  unfold SFS_BLOCKSIZE at hj
  have hin : 4096 ≤ 4096+j ∧ 4096+j < 8192 := by omega
  exact ⟨by unfold USERSPACETOP; omega, by simp [oneBlock, hin]⟩

theorem oneBlock_bmap (hd : d+1 < 2^32) (base offset resid : ℕ) (ho : fileblock ⟨base, offset, resid, .read⟩ = 0) :
    sfsBmap (fileblock ⟨base, offset, resid, .read⟩) false (oneBlock d) = .ok (.ok d, oneBlock d) := by
  rw [ho, sfsBmap_read (oneBlock_sound hd) (by decide), oneBlock_mapped, if_pos rfl]

/-- Block 5 is read either way. -/
theorem fifthBlock_agrees : Agrees (sfsBlockio ⟨4096, 0, 512, .read⟩ (oneBlock 5))
    (sfsPartialio 0 SFS_BLOCKSIZE ⟨4096, 0, 512, .read⟩ (oneBlock 5)) :=
  (blockio_agrees_iff ⟨4096, 0, 512, .read⟩ (oneBlock 5) (oneBlock 5) 5 (oneBlock_sound (by decide)) (Nat.le_refl 512)
    (by decide) (oneBlock_readable 5) (oneBlock_bmap (by decide) 4096 0 512 rfl)).mpr (.inl (by decide))

/-- Block 2^23+5 is read by way of the buffer only; directly it is block 5, which has zeros. -/
theorem farBlock_differs : ∃ u w w', sfsBlockio ⟨4096, 0, 512, .read⟩ (oneBlock 0x800005) = .ok (none, u, w) ∧
    sfsPartialio 0 SFS_BLOCKSIZE ⟨4096, 0, 512, .read⟩ (oneBlock 0x800005) = .ok (none, u, w') ∧
    w.user 4096 = some 0 ∧ w'.user 4096 = some 7 ∧
    ¬Agrees (sfsBlockio ⟨4096, 0, 512, .read⟩ (oneBlock 0x800005))
      (sfsPartialio 0 SFS_BLOCKSIZE ⟨4096, 0, 512, .read⟩ (oneBlock 0x800005)) := by
  have hsound : WellFormed (oneBlock 0x800005) := oneBlock_sound (by decide)
  have hbmap := oneBlock_bmap (d := 0x800005) (by decide) 4096 0 512 rfl
  have hd : 0x800005 ≠ 0 → 0x800005 < (oneBlock 0x800005).nblocks := fun _ => by decide
  obtain ⟨m, hblock, hput⟩ := blockio_read (u := ⟨4096, 0, 512, .read⟩) hsound hd rfl (Nat.le_refl 512)
    (oneBlock_readable _) hbmap
  obtain ⟨m', hpart, hput'⟩ := partialio_read (u := ⟨4096, 0, 512, .read⟩) hsound hd rfl (Nat.le_refl 512)
    (oneBlock_readable _) hbmap
  have hzero : m 4096 = some 0 := hput.bytes 0 (by decide)
  have hseven : m' 4096 = some 7 := hput'.bytes 0 (by decide)
  refine ⟨_, _, _, hblock, hpart, hzero, hseven, ?_⟩
  rw [hblock, hpart, agrees_iff, same_user]
  intro hsame
  rw [hsame, hzero] at hseven
  cases hseven

end OS161.SfsBlockio
