import OS161.Runs
import OS161.SfsRead
import OS161.SfsWrite

/-!
# A file as an array of bytes

After any sequence of writes to a new file, a read returns what was last written
at each place, or zeros, and other files on the volume are as before. The whole
blocks have to be on disk blocks below 2^23: the offset of a block on the disk is
computed in 32 bits, and one that wraps around belongs to something else.
-/

set_option autoImplicit false

namespace OS161.SfsArray

open Function OS161.Vfs OS161.CopyInOut OS161.Sfs OS161.SfsIo OS161.SfsPieces OS161.SfsWrite OS161.SfsRead OS161.Runs

/-- A write of `len` bytes, with the caller's memory at the time. -/
structure Write where
  pos : ℕ
  buf : ℕ
  len : ℕ
  user : UserMemory

def Write.covers (v : Write) (x : ℕ) : Bool := v.pos ≤ x && x < v.pos + v.len

def Write.byte (v : Write) (x : ℕ) : UInt8 := (v.user (v.buf + (x - v.pos))).getD 0

/-- The process that writes has its own memory. -/
def Write.start (v : Write) (w : World) : World := { w with user := v.user }

def writeStep (v : Write) (w : World) : Except Stop World :=
  match sfsIo ⟨v.buf, v.pos, v.len, .write⟩ (v.start w) with
  | .ok (_, _, w') => .ok w'
  | .error stop => .error stop

/-- The byte that was last written at a place, or zero. -/
def lastWritten (vs : List Write) (x : ℕ) : UInt8 :=
  match vs.reverse.find? (fun v => v.covers x) with
  | some v => v.byte x
  | none => 0

/-- The largest end of a write. -/
def largestEnd (vs : List Write) : ℕ := vs.foldl (fun s v => if v.len = 0 then s else max s (v.pos + v.len)) 0

/-- A write within the largest file, from a buffer that can be read, to a volume with room for it. -/
structure Proper (v : Write) (w : World) : Prop where
  inside : v.pos + v.len ≤ SFS_BLOCKSIZE * maxBlocks
  pointer : v.buf < 2^32
  readable : Readable v.user v.buf v.len
  room : need w v.pos (pieces v.pos v.len) ≤ room w

/-- No whole block of the write goes to a disk block of 2^23 or above. -/
def Low (v : Write) (w : World) : Prop := LowTargets (v.start w) v.buf v.pos v.len

/-- A file without any blocks. -/
structure New (w : World) : Prop where
  sound : WellFormed w
  size : w.size = 0
  blocks : ∀ c, mapped w c = 0

/-- A read of `n` bytes from `a` on gets those that there are, each as it was last written. -/
def ReadsBack (vs : List Write) (w : World) (a n : ℕ) : Prop :=
  ∀ buf m, Readable m buf (min n (largestEnd vs - a)) →
    ∃ u w', sfsIo ⟨buf, a, n, .read⟩ { w with user := m } = .ok (none, u, w') ∧
      n - u.resid = min n (largestEnd vs - a) ∧
      (∀ j < min n (largestEnd vs - a), w'.user (buf+j) = some (lastWritten vs (a+j))) ∧
      w' = { w with user := w'.user }

/-- The inode of another file on the volume. -/
structure File where
  size : ℕ
  direct : ℕ → ℕ
  indirect : ℕ

def other (f : File) (w : World) : World := { w with size := f.size, direct := f.direct, indirect := f.indirect }

/-- The other file's blocks are in use for it. -/
structure Beside (f : File) (w : World) : Prop where
  blocks : ∀ c, mapped (other f w) c ≠ 0 → Foreign w (mapped (other f w) c)
  indirect : f.indirect ≠ 0 → Foreign w f.indirect

def OthersKept (w w' : World) : Prop := ∀ f, Beside f w → ∀ x, byteAt (other f w') x = byteAt (other f w) x

variable {vs : List Write} {v : Write} {w w' w₀ : World} {f : File} {x a n : ℕ}

theorem lastWritten_snoc (vs : List Write) (v : Write) (x : ℕ) :
    lastWritten (vs ++ [v]) x = if v.covers x then v.byte x else lastWritten vs x := by
  unfold lastWritten
  rw [List.reverse_append, List.reverse_singleton, List.singleton_append, List.find?_cons]
  by_cases hv : v.covers x = true
  · rw [hv]
    rfl
  · rw [Bool.not_eq_true] at hv
    rw [hv]
    rfl

theorem largestEnd_snoc (vs : List Write) (v : Write) :
    largestEnd (vs ++ [v]) = if v.len = 0 then largestEnd vs else max (largestEnd vs) (v.pos + v.len) := by
  unfold largestEnd
  rw [List.foldl_append]
  rfl

/-- Blocks that are in use for something else are not written. -/
theorem other_byteAt (hb : Beside f w) (hkept : ∀ e, Foreign w e → w'.disk e = w.disk e) (x : ℕ) :
    byteAt (other f w') x = byteAt (other f w) x := by
  have hmapped : ∀ c, mapped (other f w') c = mapped (other f w) c := by
    intro c
    unfold mapped
    by_cases hzero : f.indirect = 0
    · simp only [other, hzero, if_true]
    · have hdisk : (other f w').disk (other f w').indirect = (other f w).disk (other f w).indirect :=
        hkept _ (hb.indirect hzero)
      rw [hdisk]
      rfl
  unfold byteAt blockData
  rw [hmapped]
  by_cases hzero : mapped (other f w) (x / SFS_BLOCKSIZE) = 0
  · rw [if_pos hzero, if_pos hzero]
  · rw [if_neg hzero, if_neg hzero]
    exact congrFun (hkept _ (hb.blocks _ hzero)) _

/-- The file as it has to be after `vs`, on a volume that was `w₀`. -/
structure Holds (vs : List Write) (w₀ w : World) : Prop where
  sound : WellFormed w
  size : w.size = largestEnd vs
  small : w.size ≤ SFS_BLOCKSIZE * maxBlocks
  data : ∀ x, byteAt w x = lastWritten vs x
  foreign : ∀ e, Foreign w₀ e → Foreign w e ∧ w.disk e = w₀.disk e

theorem new_holds (h : New w) : Holds [] w w := by
  refine ⟨h.sound, h.size, by rw [h.size]; exact Nat.zero_le _, ?_, fun _ he => ⟨he, rfl⟩⟩
  intro x
  rw [byteAt, blockData, if_pos (h.blocks _)]
  rfl

theorem need_mono {p i k : ℕ} (h : i ≤ k) : need w p i ≤ need w p k := by
  have hcount := Nat.count_monotone (fun c => mapped w (home p + c) = 0) h
  unfold need
  split_ifs <;> omega

theorem Proper.fits (h : Proper v w) {i : ℕ} (hi : i < pieces v.pos v.len) : Fits (v.start w) v.buf v.pos v.len i := by
  have hinside := h.inside
  have hwithin := within_piece hi
  refine ⟨?_, ?_, Nat.le_trans (need_mono hi) h.room⟩
  · simp only [pieces, home, SFS_BLOCKSIZE, maxBlocks, SFS_NDIRECT, SFS_NINDIRECT, SFS_DBPERIDB] at *
    omega
  · intro j _ hj
    have hall := hwithin.all
    exact h.readable j (by omega)

/-- One more write. -/
theorem write_holds (h : Holds vs w₀ w) (hv : Proper v w) (hlow : Low v w) :
    ∃ w', writeStep v w = .ok w' ∧ Holds (vs ++ [v]) w₀ w' := by
  have hstart : WellFormed (v.start w) := h.sound.withUser v.user
  obtain ⟨m, e, u, w', hio, hout⟩ := sfsIo_write hstart hv.pointer hlow
  obtain ⟨-, rfl⟩ | ⟨-, hm, hbad⟩ := hout.ends
  · have hinside := hv.inside
    have hlarge : SFS_BLOCKSIZE * maxBlocks = 73216 := by decide
    have hwrapped : wrapped v.pos = v.pos := Nat.mod_eq_of_lt (by omega)
    have hsize := hout.size
    rw [cut_all] at hsize
    have hold : (v.start w).size = w.size := rfl
    have hend : w'.size = largestEnd (vs ++ [v]) := by
      rw [hsize, largestEnd_snoc, ← h.size, hold]
      have hsmall := h.small
      split_ifs <;> omega
    refine ⟨w', by simp only [writeStep, hio], hout.sound, hend, ?_, ?_, ?_⟩
    · have hsmall := h.small
      rw [hsize, hold]
      split_ifs <;> omega
    · intro x
      rw [hout.data, cut_all, pasted, hwrapped, lastWritten_snoc]
      by_cases hx : v.pos ≤ x ∧ x < v.pos + v.len
      · rw [if_pos hx, if_pos (by simpa [Write.covers] using hx)]
        rfl
      · rw [if_neg hx, if_neg (by simpa [Write.covers] using hx)]
        exact h.data x
    · intro e he
      obtain ⟨he', hdisk⟩ := h.foreign e he
      obtain ⟨he'', hdisk'⟩ := hout.foreign e he'
      exact ⟨he'', hdisk'.trans hdisk⟩
  · exact absurd (hv.fits hm) hbad

theorem run_holds {ws : List Write} (h : Holds vs w₀ w) (hproper : Guarded writeStep Proper ws w)
    (hlow : Guarded writeStep Low ws w) : ∃ w', run writeStep ws w = .ok w' ∧ Holds (vs ++ ws) w₀ w' := by
  induction ws generalizing vs w with
  | nil => exact ⟨w, rfl, by rwa [List.append_nil]⟩
  | cons v ws ih =>
    obtain ⟨w₁, hstep, hheld⟩ := write_holds h hproper.1 hlow.1
    obtain ⟨w', hrun, hheld'⟩ := ih hheld (hproper.2 w₁ hstep) (hlow.2 w₁ hstep)
    refine ⟨w', run_cons_ok.mpr ⟨w₁, hstep, hrun⟩, ?_⟩
    rwa [List.append_assoc] at hheld'

theorem Holds.reads (h : Holds vs w₀ w) (hlow : LowBlocks w a (min n (largestEnd vs - a))) : ReadsBack vs w a n := by
  intro buf m hm
  have hsize : largestEnd vs = w.size := h.size.symm
  rw [hsize] at hm hlow ⊢
  obtain ⟨u, w', hio, hcount, hworld, hput⟩ := sfsIo_read (h.sound.withUser m) h.small hm hlow
  refine ⟨u, w', hio, hcount, ?_, hworld⟩
  intro j hj
  rw [← h.data]
  exact hput.bytes j hj

/-- Any sequence of writes to a new file, and what is read after it. -/
theorem run_array (w : World) (vs : List Write) (hnew : New w) (hproper : Guarded writeStep Proper vs w)
    (hlow : Guarded writeStep Low vs w) : ∃ w', run writeStep vs w = .ok w' ∧
      (∀ a n, LowBlocks w' a (min n (largestEnd vs - a)) → ReadsBack vs w' a n) ∧ OthersKept w w' := by
  obtain ⟨w', hrun, hheld⟩ := run_holds (new_holds hnew) hproper hlow
  rw [List.nil_append] at hheld
  refine ⟨w', hrun, fun a n hread => hheld.reads hread, ?_⟩
  intro f hb x
  exact other_byteAt hb (fun e he => (hheld.foreign e he).2) x

/-- One byte at the end of the first block. -/
def oneByte : Write := ⟨511, 4096, 1, oneFree.user⟩

theorem oneFree_new : New oneFree := ⟨oneFree_sound, rfl, oneFree_mapped⟩

theorem oneByte_proper : Proper oneByte oneFree := by
  refine ⟨by decide, by decide, ?_, by decide +kernel⟩
  intro j hj
  have hlen : oneByte.len = 1 := rfl
  have hzero : j = 0 := by omega
  subst hzero
  decide

theorem oneByte_low : Low oneByte oneFree := by
  intro i d _ _ htarget
  obtain ⟨hne, -⟩ | ⟨-, hfree, -⟩ := htarget
  · exact absurd (oneFree_mapped _) hne
  · have hd : d = 3 := oneFree_free hfree
    omega

theorem oneByte_array : ∃ w', run writeStep [oneByte] oneFree = .ok w' ∧ ReadsBack [oneByte] w' 0 10 ∧
    OthersKept oneFree w' := by
  obtain ⟨w', hrun, hreads, hothers⟩ := run_array oneFree [oneByte] oneFree_new
    ⟨oneByte_proper, fun _ _ => trivial⟩ ⟨oneByte_low, fun _ _ => trivial⟩
  refine ⟨w', hrun, hreads 0 10 ?_, hothers⟩
  intro i hwhole
  simp only [cut, SFS_BLOCKSIZE] at hwhole
  omega

/-- A new file on a volume of more than 2^23 blocks, of which one is free. -/
def large : World where
  size := 0
  direct := fun _ => 0
  indirect := 0
  freemap := fun d => d != 0x800005
  nbits := 0x801000
  nblocks := 0x800008
  disk := fun _ => zeros
  dBlocks := 0x800008
  user := fun a => if 4096 ≤ a ∧ a < 8192 then some 7 else none

/-- The file that has block 5. -/
def neighbour : File := ⟨512, fun c => if c = 0 then 5 else 0, 0⟩

/-- A whole block. -/
def wholeBlock : Write := ⟨0, 4096, 512, large.user⟩

theorem large_mapped (c : ℕ) : mapped large c = 0 := by simp [mapped, large]

theorem large_free {d : ℕ} (h : Free large d) : d = 0x800005 := by
  have hclear := h.2
  simpa [large] using hclear

theorem large_sound : WellFormed large := by
  refine ⟨by decide, ?_, by decide, by decide, ?_, fun h => absurd rfl h, ?_, ?_⟩
  · intro d hd
    rw [large_free hd]
    decide
  · intro c hc
    exact absurd (large_mapped c) hc
  · intro c _ _ hc
    exact absurd (large_mapped c) hc
  · intro c hc
    exact absurd (large_mapped c) hc

theorem five_foreign : Foreign large 5 := by
  refine ⟨by decide, ?_, by decide⟩
  intro c
  rw [large_mapped]
  decide

theorem neighbour_mapped (c : ℕ) (w : World) : mapped (other neighbour w) c = if c = 0 then 5 else 0 := by
  unfold mapped other neighbour
  by_cases hc : c = 0
  · simp [hc, SFS_NDIRECT]
  · simp [hc]

theorem neighbour_beside : Beside neighbour large := by
  refine ⟨?_, fun h => absurd rfl h⟩
  intro c hc
  rw [neighbour_mapped] at hc ⊢
  by_cases hzero : c = 0
  · rw [if_pos hzero]
    exact five_foreign
  · rw [if_neg hzero] at hc
    exact absurd rfl hc

theorem neighbour_byte (w : World) : byteAt (other neighbour w) 0 = w.disk 5 0 := by
  have hblock : mapped (other neighbour w) (0 / SFS_BLOCKSIZE) = 5 := neighbour_mapped 0 w
  unfold byteAt blockData
  rw [hblock]
  rfl

theorem large_readable : Readable large.user 4096 512 := by
  intro j hj
  have hin : 4096 ≤ 4096+j ∧ 4096+j < 8192 := by omega
  exact ⟨by unfold USERSPACETOP; omega, by simp [large, hin]⟩

theorem large_bmap : ∃ w, sfsBmap 0 true large = .ok (.ok 0x800005, w) ∧ Maps 0 0x800005 large w := by
  have hroom : wants large 0 ≤ room large := by
    have hmore : 0 < room large :=
      Nat.pos_of_ne_zero (Nat.count_ne_iff_exists.mpr ⟨0x800005, by decide, by decide, by decide⟩)
    have hwants : wants large 0 = 1 := by decide
    omega
  have hspec := sfsBmap_spec large_sound 0
  generalize sfsBmap 0 true large = res at hspec ⊢
  cases hspec with
  | beyond hc => exact absurd hc (by decide)
  | full r w' hc hfull hg => omega
  | maps d w' hc hle hm =>
    have hd : d = 0x800005 := large_free (hm.new (large_mapped 0)).1
    exact ⟨w', by rw [hd], hd ▸ hm⟩

/-- A whole block at the start of an empty file goes to the disk block that its offset stands for. -/
theorem sfsIo_whole {d : ℕ} {w₁ : World} {data : Buffer} (hbmap : sfsBmap 0 true w = .ok (.ok d, w₁))
    (hm : Maps 0 d w w₁) (hlt : d < w₁.nblocks) (hempty : w.size = 0)
    (hmove : uiomove zeros LHD_SECTSIZE ⟨4096, d * SFS_BLOCKSIZE % 2^32, SFS_BLOCKSIZE, .write⟩ w₁.user =
      (none, data, ⟨4608, d * SFS_BLOCKSIZE % 2^32 + 512, 0, .write⟩, w₁.user)) :
    sfsIo ⟨4096, 0, 512, .write⟩ w =
      .ok (none, ⟨4608, 512, 0, .write⟩, { w₁ with disk := update w₁.disk (d % 2^23) data, size := 512 }) := by
  have hio := lhdIo_one hlt hm.grown.sound 4096
  simp only [hmove] at hio
  have hfile : fileblock ⟨4096, 0, 512, .write⟩ = 0 := rfl
  have hfull : ¬512 < SFS_BLOCKSIZE := by decide
  have hblock : sfsBlockio ⟨4096, 0, 512, .write⟩ w =
      .ok (none, ⟨4608, 512, 0, .write⟩, { w₁ with disk := update w₁.disk (d % 2^23) data }) := by
    unfold sfsBlockio
    simp only [hfile, decide_true, hbmap, if_neg hm.nonzero, if_neg hfull, hio]
    simp only [Except.ok.injEq, Prod.mk.injEq, Uio.mk.injEq, true_and, and_true]
    unfold SFS_BLOCKSIZE
    omega
  have hone : 512 / SFS_BLOCKSIZE = 0+1 := rfl
  have haligned : ¬0 % SFS_BLOCKSIZE ≠ 0 := by decide
  have hloop : transfer ⟨4096, 0, 512, .write⟩ w =
      .ok (none, ⟨4608, 512, 0, .write⟩, { w₁ with disk := update w₁.disk (d % 2^23) data }) := by
    unfold transfer transferAligned
    simp only [haligned, if_false, andThen, OfNat.ofNat_ne_zero, hone, blockLoop, hblock]
    rw [if_neg (by decide), if_neg (Nat.lt_irrefl 0)]
  have hsize : w₁.size = 0 := hm.grown.kept.size.trans hempty
  unfold sfsIo
  simp only [reduceCtorEq, false_and, if_false, Nat.sub_zero]
  rw [hloop]
  simp [hsize]

theorem writeStep_ok {e : Option Errno} {u : Uio} (hstart : v.start w = w₀)
    (hio : sfsIo ⟨v.buf, v.pos, v.len, .write⟩ w₀ = .ok (e, u, w')) : writeStep v w = .ok w' := by
  simp only [writeStep, hstart, hio]

/-- The block goes to the other file's. -/
theorem wholeBlock_wraps : ∃ w', run writeStep [wholeBlock] large = .ok w' ∧ byteAt (other neighbour large) 0 = 0 ∧
    byteAt (other neighbour w') 0 = 7 ∧ ¬OthersKept large w' := by
  obtain ⟨w₁, hbmap, hm⟩ := large_bmap
  have huser : w₁.user = large.user := hm.grown.kept.user
  obtain ⟨data, hmove, hdata⟩ := uiomove_moves (u := ⟨4096, 0x800005 * SFS_BLOCKSIZE % 2^32, SFS_BLOCKSIZE, .write⟩)
    (m := w₁.user) LHD_SECTSIZE (show (4096 : ℕ) < 2^32 by decide) rfl (Nat.le_refl _)
    (by rw [huser]; exact large_readable) zeros
  have hlt : 0x800005 < w₁.nblocks := by
    rw [hm.grown.kept.nblocks]
    decide
  have hstart : wholeBlock.start large = large := rfl
  have hstep := writeStep_ok hstart (sfsIo_whole hbmap hm hlt rfl hmove)
  have hfirst : data 0 = 7 := by
    rw [hdata, huser]
    rfl
  have hfive : 0x800005 % 2^23 = 5 := by decide
  have hafter : byteAt (other neighbour { w₁ with disk := update w₁.disk (0x800005 % 2^23) data, size := 512 }) 0 = 7 := by
    rw [neighbour_byte, hfive]
    exact (congrFun (update_self 5 data w₁.disk) 0).trans hfirst
  have hbefore : byteAt (other neighbour large) 0 = 0 := neighbour_byte large
  refine ⟨_, run_cons_ok.mpr ⟨_, hstep, rfl⟩, hbefore, hafter, ?_⟩
  intro hkept
  have hsame := hkept neighbour neighbour_beside 0
  rw [hafter, hbefore] at hsame
  exact absurd hsame (by decide)

end OS161.SfsArray
