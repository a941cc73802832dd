import OS161.SfsOffsets
import OS161.SfsTruncate

/-!
# Whose blocks change

Whatever is done to one file, a block that is in use and not one of its own stays
in use and keeps its bytes, and after it every block in use is one of these or
one of the file's. So a file neither takes a block from another one nor loses one.
-/

set_option autoImplicit false

namespace OS161.SfsOwnership

open Function OS161.Vfs OS161.CopyInOut OS161.FirstFit OS161.Sfs OS161.SfsIo OS161.SfsTruncate
open OS161.SharedDescriptor (Rw)

/-- The file has the number of the block, in its inode or in its indirect block. -/
def Owns (w : World) (e : ℕ) : Prop := e ≠ 0 ∧ ((∃ c, mapped w c = e) ∨ w.indirect = e)

/-- A block that is in use for something else, of which block 0 is one. -/
def Outside (w : World) (e : ℕ) : Prop := w.freemap e = true ∧ ¬Owns w e

structure Evolves (w w' : World) : Prop where
  mounted : Mounted w'
  nbits : w'.nbits = w.nbits
  nblocks : w'.nblocks = w.nblocks
  dBlocks : w'.dBlocks = w.dBlocks
  outside : ∀ e, Outside w e → Outside w' e ∧ w'.disk e = w.disk e
  exact : ∀ e, w'.freemap e = true → Outside w e ∨ Owns w' e

variable {w w' w'' : World} {c d e k n : ℕ} {u u' : Uio} {r : IoResult} {doalloc : Bool}

theorem Evolves.refl (h : Mounted w) : Evolves w w := by
  refine ⟨h, rfl, rfl, rfl, fun e he => ⟨he, rfl⟩, fun e he => ?_⟩
  by_cases ho : Owns w e
  · exact .inr ho
  · exact .inl ⟨he, ho⟩

theorem Evolves.trans (h : Evolves w w') (h' : Evolves w' w'') : Evolves w w'' := by
  refine ⟨h'.mounted, h'.nbits.trans h.nbits, h'.nblocks.trans h.nblocks, h'.dBlocks.trans h.dBlocks, ?_, ?_⟩
  · intro e he
    obtain ⟨hout, hdisk⟩ := h.outside e he
    obtain ⟨hout', hdisk'⟩ := h'.outside e hout
    exact ⟨hout', hdisk'.trans hdisk⟩
  · intro e he
    obtain hout | hown := h'.exact e he
    · obtain hfirst | hown := h.exact e hout.1
      · exact .inl hfirst
      · exact absurd hown hout.2
    · exact .inr hown

theorem owns_mapped (hc : mapped w c ≠ 0) : Owns w (mapped w c) := ⟨hc, .inl ⟨c, rfl⟩⟩

theorem owns_indirect (hi : w.indirect ≠ 0) : Owns w w.indirect := ⟨hi, .inr rfl⟩

theorem owns_held (h : WellFormed w) (he : Owns w e) : Held w e := by
  obtain ⟨hne, ⟨c, rfl⟩ | rfl⟩ := he
  · exact h.held c hne
  · exact h.heldIndirect hne

theorem outside_foreign (h : Outside w e) (he : e ≠ 0) : Foreign w e :=
  ⟨h.1, fun c hc => h.2 ⟨he, .inl ⟨c, hc⟩⟩, fun hi => h.2 ⟨he, .inr hi⟩⟩

/-- The size of a file and the caller's memory do not count. -/
theorem Evolves.congr (h : Evolves w w') {s : ℕ} (hs : s < 2^32) (m : UserMemory) :
    Evolves w { w' with size := s, user := m } := by
  refine ⟨⟨?_, h.mounted.bits⟩, h.nbits, h.nblocks, h.dBlocks, h.outside, h.exact⟩
  exact (h.mounted.sound.resize s hs).withUser m

theorem Evolves.withUser (h : Evolves w w') (m : UserMemory) : Evolves w { w' with user := m } :=
  h.congr h.mounted.sound.size m

/-- The first free block, taken for a place of the file that had none. -/
structure Grab (d : ℕ) (w w' : World) : Prop where
  taken : Taken d w w'
  free : Least (Free w) d
  disk : ∀ e, e ≠ d → ¬Owns w e → w'.disk e = w.disk e
  place : (∃ c, mapped w c = 0 ∧ mapped w' = update (mapped w) c d ∧ w'.indirect = w.indirect) ∨
    w.indirect = 0 ∧ mapped w' = mapped w ∧ w'.indirect = d

theorem Grab.grown (hg : Grab d w w') (h : WellFormed w) : Grown 1 w w' := by
  obtain ⟨c, hc, hmapped, hindirect⟩ | ⟨-, hmapped, hindirect⟩ := hg.place
  · exact hg.taken.grown_block h hg.free hc hmapped hindirect
  · exact hg.taken.grown_indirect h hg.free hmapped hindirect

theorem Grab.owns (hg : Grab d w w') (h : WellFormed w) (e : ℕ) : Owns w' e ↔ Owns w e ∨ e = d := by
  have hd : d ≠ 0 := Nat.ne_of_gt (h.exist d hg.free.1).1
  obtain ⟨c, hc, hmapped, hindirect⟩ | ⟨hnone, hmapped, hindirect⟩ := hg.place
  · have hmap : ∀ a, mapped w' a = if a = c then d else mapped w a := by
      intro a
      rw [hmapped]
      exact update_apply ..
    constructor
    · rintro ⟨hne, ⟨a, ha⟩ | hi⟩
      · rw [hmap] at ha
        split at ha
        · exact .inr ha.symm
        · exact .inl ⟨hne, .inl ⟨a, ha⟩⟩
      · exact .inl ⟨hne, .inr (hindirect ▸ hi)⟩
    · rintro (⟨hne, ⟨a, ha⟩ | hi⟩ | rfl)
      · refine ⟨hne, .inl ⟨a, ?_⟩⟩
        have hac : a ≠ c := by
          rintro rfl
          exact hne (ha.symm.trans hc)
        rw [hmap, if_neg hac, ha]
      · exact ⟨hne, .inr (hindirect.trans hi)⟩
      · exact ⟨hd, .inl ⟨c, by rw [hmap, if_pos rfl]⟩⟩
  · constructor
    · rintro ⟨hne, ⟨a, ha⟩ | hi⟩
      · exact .inl ⟨hne, .inl ⟨a, hmapped ▸ ha⟩⟩
      · exact .inr (hi.symm.trans hindirect)
    · rintro (⟨hne, ⟨a, ha⟩ | hi⟩ | rfl)
      · exact ⟨hne, .inl ⟨a, hmapped ▸ ha⟩⟩
      · exact absurd (hi.symm.trans hnone) hne
      · exact ⟨hd, .inr hindirect⟩

theorem Grab.evolves (hg : Grab d w w') (h : Mounted w) : Evolves w w' := by
  have hgrown := hg.grown h.sound
  refine ⟨⟨hgrown.sound, ?_⟩, hgrown.kept.nbits, hgrown.kept.nblocks, hgrown.kept.dBlocks, ?_, ?_⟩
  · rw [hgrown.kept.nblocks, hgrown.kept.nbits]
    exact h.bits
  · rintro e ⟨hused, hnot⟩
    have hed : e ≠ d := by
      rintro rfl
      simp [hg.free.1.2] at hused
    refine ⟨⟨?_, ?_⟩, hg.disk e hed hnot⟩
    · rwa [hg.taken.freemap, update_of_ne hed]
    · rw [hg.owns h.sound]
      exact fun ho => ho.elim hnot hed
  · intro e he
    rw [hg.owns h.sound]
    by_cases hed : e = d
    · exact .inr (.inr hed)
    · rw [hg.taken.freemap, update_of_ne hed] at he
      by_cases ho : Owns w e
      · exact .inr (.inl ho)
      · exact .inl ⟨he, ho⟩

theorem grab_direct (h : WellFormed w) (hc : c < SFS_NDIRECT) (hzero : w.direct c = 0) (hd : Least (Free w) d) :
    Grab d w { take d w with direct := update w.direct c d } := by
  obtain ⟨-, hfreemap, hcleared, hdisk⟩ := taken_take d w
  refine ⟨⟨⟨rfl, rfl, rfl, rfl, rfl⟩, hfreemap, hcleared, hdisk⟩, hd, fun e he _ => update_of_ne he _ _,
    .inl ⟨c, (mapped_direct hc).trans hzero, ?_, rfl⟩⟩
  funext a
  by_cases ha : a = c
  · subst ha
    rw [update_self, mapped_direct hc]
    exact update_self a d w.direct
  · have hread : (take d w).disk w.indirect = w.disk w.indirect :=
      update_of_ne (h.fresh hd.1).2 _ _
    rw [update_of_ne ha]
    unfold mapped
    by_cases hlow : a < SFS_NDIRECT
    · rw [if_pos hlow, if_pos hlow]
      exact update_of_ne ha _ _
    · rw [if_neg hlow, if_neg hlow]
      exact congrArg (fun b => if a < maxBlocks then if w.indirect = 0 then 0 else getNumber b (a - SFS_NDIRECT) else 0) hread

theorem grab_indirect (hnone : w.indirect = 0) (hd : Least (Free w) d) (hpos : d ≠ 0) :
    Grab d w { take d w with indirect := d } := by
  obtain ⟨-, hfreemap, hcleared, hdisk⟩ := taken_take d w
  refine ⟨⟨⟨rfl, rfl, rfl, rfl, rfl⟩, hfreemap, hcleared, hdisk⟩, hd, fun e he _ => update_of_ne he _ _,
    .inr ⟨hnone, ?_, rfl⟩⟩
  funext a
  have hread : (take d w).disk d = zeros := update_self ..
  unfold mapped
  by_cases hlow : a < SFS_NDIRECT
  · rw [if_pos hlow, if_pos hlow]
    rfl
  · rw [if_neg hlow, if_neg hlow, if_neg hpos, if_pos hnone, hread, getNumber_zeros]

theorem grab_entry (h : WellFormed w) (hk : k < SFS_DBPERIDB) (hind : w.indirect ≠ 0)
    (hzero : getNumber (w.disk w.indirect) k = 0) (hd : Least (Free w) d) :
    Grab d w { take d w with disk := update (take d w).disk w.indirect (putNumber (w.disk w.indirect) k d) } := by
  obtain ⟨-, hfreemap, -, -⟩ := taken_take d w
  have hwords : d < 2^32 := by
    have hlt := (h.exist d hd.1).2
    have hdevice := h.device
    have hsmall := h.words
    omega
  have hfresh : w.indirect ≠ d := (h.fresh hd.1).2
  refine ⟨⟨⟨rfl, rfl, rfl, rfl, rfl⟩, hfreemap, ?_, ?_⟩, hd, ?_, .inl ⟨SFS_NDIRECT + k, (mapped_indirect hk hind).trans hzero, ?_, rfl⟩⟩
  · simp [take, update_of_ne hfresh.symm]
  · intro e he hne
    simp [take, update_of_ne he, update_of_ne hne]
  · intro e he hnot
    have hne : e ≠ w.indirect := by
      rintro rfl
      exact hnot (owns_indirect hind)
    simp [take, update_of_ne he, update_of_ne hne]
  · funext a
    have hread : update (take d w).disk w.indirect (putNumber (w.disk w.indirect) k d) w.indirect =
        putNumber (w.disk w.indirect) k d := update_self ..
    by_cases ha : a = SFS_NDIRECT + k
    · subst ha
      rw [update_self, mapped_indirect hk (by exact hind)]
      exact (congrArg (getNumber · k) hread).trans ((getNumber_put _ _ _ hwords).trans (if_pos rfl))
    · rw [update_of_ne ha]
      unfold mapped
      by_cases hlow : a < SFS_NDIRECT
      · rw [if_pos hlow, if_pos hlow]
        rfl
      · have hother : getNumber (update (take d w).disk w.indirect (putNumber (w.disk w.indirect) k d) w.indirect)
            (a - SFS_NDIRECT) = getNumber (w.disk w.indirect) (a - SFS_NDIRECT) :=
          (congrArg (getNumber · _) hread).trans ((getNumber_put _ _ _ hwords).trans (if_neg (by omega)))
        rw [if_neg hlow, if_neg hlow]
        exact congrArg (fun b => if a < maxBlocks then if w.indirect = 0 then 0 else b else 0) hother

/-- `sfs_balloc` takes the first free block or finds none. -/
theorem balloc_cases (h : WellFormed w) : sfsBalloc w = .ok (.error .enospc, w) ∨
    ∃ d, Least (Free w) d ∧ sfsBalloc w = .ok (.ok d, take d w) := by
  by_cases hroom : room w = 0
  · exact .inl (sfsBalloc_full hroom)
  · exact .inr (sfsBalloc_takes h (Nat.pos_of_ne_zero hroom))

/-- What `sfs_bmap` leaves: the block is the file's own. -/
structure Mapped (c : ℕ) (w : World) (r : Except Errno ℕ) (w' : World) : Prop where
  evolves : Evolves w w'
  size : w'.size = w.size
  user : w'.user = w.user
  own : ∀ d, r = .ok d → mapped w' c = d

theorem Grab.mapped_of (hg : Grab d w w') (h : Mounted w) {res : Except Errno ℕ} (hown : ∀ e, res = .ok e → mapped w' c = e) :
    Mapped c w res w' :=
  ⟨hg.evolves h, hg.taken.kept.size, hg.taken.kept.user, hown⟩

/-- A block of the file is handed back. -/
theorem handBack_own (h : WellFormed w) (hc : mapped w c = d) : handBack d w = .ok (.ok d, w) := by
  by_cases hd : d = 0
  · subst hd
    rfl
  · exact handBack_ok (hc ▸ h.held c (hc ▸ hd)) hd

theorem Mapped.stay (h : Mounted w) {res : Except Errno ℕ} (hown : ∀ e, res = .ok e → mapped w c = e) : Mapped c w res w :=
  ⟨Evolves.refl h, rfl, rfl, hown⟩

theorem Mapped.after {res : Except Errno ℕ} (hm : Mapped c w' res w'') (hg : Grab d w w') (h : Mounted w) :
    Mapped c w res w'' :=
  ⟨(hg.evolves h).trans hm.evolves, hm.size.trans hg.taken.kept.size, hm.user.trans hg.taken.kept.user, hm.own⟩

theorem directBmap_maps (h : Mounted w) (hc : c < SFS_NDIRECT) (doalloc : Bool) :
    ∃ res w', directBmap c doalloc w = .ok (res, w') ∧ Mapped c w res w' := by
  by_cases hlook : w.direct c = 0 ∧ doalloc
  · obtain hfull | ⟨d, hd, halloc⟩ := balloc_cases h.sound
    · exact ⟨.error .enospc, w, by simp only [directBmap, if_pos hlook, hfull], .stay h (by simp)⟩
    · have hg := grab_direct h.sound hc hlook.1 hd
      have hmap : mapped { take d w with direct := update w.direct c d } c = d :=
        (mapped_direct hc).trans (update_self ..)
      refine ⟨.ok d, _, ?_, hg.mapped_of h (by rintro e ⟨⟩; exact hmap)⟩
      simp only [directBmap, if_pos hlook, halloc]
      exact handBack_own (hg.grown h.sound).sound hmap
  · refine ⟨.ok (w.direct c), w, ?_, .stay h (by rintro e ⟨⟩; exact mapped_direct hc)⟩
    simp only [directBmap, if_neg hlook]
    exact handBack_own h.sound (mapped_direct hc)

theorem indirectBmap_maps (h : Mounted w) (hk : k < SFS_DBPERIDB) (hind : w.indirect ≠ 0) (doalloc : Bool) :
    ∃ res w', indirectBmap w.indirect (w.disk w.indirect) k doalloc w = .ok (res, w') ∧
      Mapped (SFS_NDIRECT + k) w res w' := by
  have hmap := mapped_indirect hk hind
  by_cases hlook : getNumber (w.disk w.indirect) k = 0 ∧ doalloc
  · obtain hfull | ⟨d, hd, halloc⟩ := balloc_cases h.sound
    · exact ⟨.error .enospc, w, by simp only [indirectBmap, if_pos hlook, hfull], .stay h (by simp)⟩
    · have hg := grab_entry h.sound hk hind hlook.1 hd
      have hsound := (hg.grown h.sound).sound
      have hown : mapped { take d w with disk := update (take d w).disk w.indirect (putNumber (w.disk w.indirect) k d) }
          (SFS_NDIRECT + k) = d := by
        obtain ⟨c, hc, hmapped, -⟩ | ⟨hnone, -⟩ := hg.place
        · rw [mapped_indirect hk (by exact hind)]
          have hwords : d < 2^32 := by
            have hlt := (h.sound.exist d hd.1).2
            have hdevice := h.sound.device
            have hsmall := h.sound.words
            omega
          exact (congrArg (getNumber · k) (update_self ..)).trans ((getNumber_put _ _ _ hwords).trans (if_pos rfl))
        · exact absurd hnone hind
      refine ⟨.ok d, _, ?_, hg.mapped_of h (by rintro e ⟨⟩; exact hown)⟩
      have hwrite : sfsWriteblock w.indirect (putNumber (w.disk w.indirect) k d) (take d w) =
          .ok { take d w with disk := update (take d w).disk w.indirect (putNumber (w.disk w.indirect) k d) } := by
        have hdevice := h.sound.device
        have hlt := (h.sound.heldIndirect hind).1
        have hsmall := h.sound.words
        have hsame : (take d w).dBlocks = w.dBlocks := rfl
        exact if_neg (by omega)
      simp only [indirectBmap, if_pos hlook, halloc, hwrite]
      exact handBack_own hsound hown
  · refine ⟨.ok (getNumber (w.disk w.indirect) k), w, ?_, .stay h (by rintro e ⟨⟩; exact hmap)⟩
    simp only [indirectBmap, if_neg hlook]
    exact handBack_own h.sound hmap

theorem sfsBmap_maps (h : Mounted w) (c : ℕ) (doalloc : Bool) :
    ∃ res w', sfsBmap c doalloc w = .ok (res, w') ∧ Mapped c w res w' := by
  by_cases hdirect : c < SFS_NDIRECT
  · rw [sfsBmap, if_pos hdirect]
    exact directBmap_maps h hdirect doalloc
  · by_cases hbig : maxBlocks ≤ c
    · exact ⟨.error .efbig, w, SfsOffsets.sfsBmap_beyond hbig, .stay h (by simp)⟩
    · obtain ⟨k, rfl⟩ : ∃ k, c = SFS_NDIRECT + k := ⟨c - SFS_NDIRECT, by omega⟩
      have hk : k < SFS_DBPERIDB := by
        unfold maxBlocks SFS_NINDIRECT at hbig
        omega
      have hidnum : ¬SFS_NINDIRECT ≤ k / SFS_DBPERIDB := by
        rw [Nat.div_eq_of_lt hk]
        decide
      simp only [sfsBmap, if_neg hdirect, Nat.add_sub_cancel_left, if_neg hidnum, Nat.mod_eq_of_lt hk]
      by_cases hind : w.indirect = 0
      · cases doalloc with
        | false =>
          refine ⟨.ok 0, w, by simp [hind], .stay h ?_⟩
          rintro e ⟨⟩
          exact mapped_none hk hind
        | true =>
          obtain hfull | ⟨d, hd, halloc⟩ := balloc_cases h.sound
          · exact ⟨.error .enospc, w, by simp [hind, hfull], .stay h (by simp)⟩
          · have hpos : d ≠ 0 := Nat.ne_of_gt (h.sound.exist d hd.1).1
            have hg := grab_indirect hind hd hpos
            have hread : (take d w).disk d = zeros := update_self ..
            obtain ⟨res, w', hrun, hm⟩ := indirectBmap_maps (hg.evolves h).mounted hk hpos true
            refine ⟨res, w', ?_, hm.after hg h⟩
            simp only [hind, if_true, Bool.not_true, Bool.false_eq_true, if_false, halloc]
            rw [← hread]
            exact hrun
      · simp only [if_neg hind, sfsReadblock_ok h.sound (h.sound.heldIndirect hind).1]
        exact indirectBmap_maps h hk hind doalloc

/-- A block of the file is written. -/
theorem write_evolves (h : Mounted w) (hc : mapped w c = d) (hd : d ≠ 0) (data : Block) :
    sfsWriteblock d data w = .ok { w with disk := update w.disk d data } ∧
      Evolves w { w with disk := update w.disk d data } ∧
      mapped { w with disk := update w.disk d data } = mapped w := by
  obtain ⟨w₁, hrun, rfl, hsound, hmapped, -⟩ := writeblock_data h.sound hc hd data
  have howns : ∀ e, Owns { w with disk := update w.disk d data } e ↔ Owns w e := by
    intro e
    unfold Owns
    rw [hmapped]
  refine ⟨hrun, ⟨⟨hsound, h.bits⟩, rfl, rfl, rfl, ?_, ?_⟩, hmapped⟩
  · rintro e ⟨hused, hnot⟩
    refine ⟨⟨hused, fun ho => hnot ((howns e).mp ho)⟩, update_of_ne ?_ _ _⟩
    rintro rfl
    exact hnot ⟨hd, .inl ⟨c, hc⟩⟩
  · intro e he
    rw [howns]
    by_cases ho : Owns w e
    · exact .inr ho
    · exact .inl ⟨he, ho⟩

/-- What `sfs_itrunc` does to block 0, which no file has: nothing. -/
def SuperKept (w w' : World) : Prop := w'.freemap 0 = w.freemap 0 ∧ w'.disk 0 = w.disk 0

theorem SuperKept.trans (h : SuperKept w w') (h' : SuperKept w' w'') : SuperKept w w'' :=
  ⟨h'.1.trans h.1, h'.2.trans h.2⟩

theorem bfree_super (hd : d ≠ 0) (hrun : sfsBfree d w = .ok w') : SuperKept w w' := by
  unfold sfsBfree at hrun
  split at hrun
  · cases hrun
  · cases hrun
    exact ⟨update_of_ne hd.symm _ _, rfl⟩

theorem directLoop_super {b left i : ℕ} (hrun : directLoop b left i w = .ok w') : SuperKept w w' := by
  induction left generalizing i w with
  | zero =>
    cases hrun
    exact ⟨rfl, rfl⟩
  | succ left ih =>
    simp only [directLoop] at hrun
    split at hrun
    · next hlook =>
      cases hfree : sfsBfree (w.direct i) w with
      | error stop => simp [hfree] at hrun
      | ok w₁ =>
        simp only [hfree] at hrun
        exact (bfree_super hlook.2 hfree).trans (ih (w := { w₁ with direct := update w₁.direct i 0 }) hrun)
    · exact ih hrun

theorem indirectLoop_super {b left j : ℕ} {s s' : Scan} (hrun : indirectLoop b left j s w = .ok (s', w')) :
    SuperKept w w' := by
  induction left generalizing j s w with
  | zero =>
    cases hrun
    exact ⟨rfl, rfl⟩
  | succ left ih =>
    simp only [indirectLoop] at hrun
    split at hrun
    · next hlook =>
      cases hfree : sfsBfree (getNumber s.idbuf j) w with
      | error stop => simp [hfree] at hrun
      | ok w₁ =>
        simp only [hfree] at hrun
        exact (bfree_super hlook.2 hfree).trans (ih hrun)
    · exact ih hrun

theorem indirectTrunc_super {b : ℕ} (hrun : indirectTrunc b w = .ok w') : SuperKept w w' := by
  unfold indirectTrunc at hrun
  dsimp only at hrun
  split at hrun
  · next hlook =>
    cases hread : sfsReadblock w.indirect w with
    | error stop => simp [hread] at hrun
    | ok idbuf =>
      simp only [hread] at hrun
      cases hloop : indirectLoop b SFS_DBPERIDB 0 ⟨idbuf, false, false⟩ w with
      | error stop => simp [hloop] at hrun
      | ok res =>
        obtain ⟨s, w₁⟩ := res
        simp only [hloop, indirectDone] at hrun
        refine (indirectLoop_super hloop).trans ?_
        split at hrun
        · cases hfree : sfsBfree w.indirect w₁ with
          | error stop => simp [hfree] at hrun
          | ok w₂ =>
            simp only [hfree, Except.ok.injEq] at hrun
            subst hrun
            have hkept := bfree_super hlook.2 hfree
            exact ⟨hkept.1, hkept.2⟩
        · split at hrun
          · unfold sfsWriteblock at hrun
            split at hrun
            · cases hrun
            · cases hrun
              exact ⟨rfl, update_of_ne hlook.2.symm _ _⟩
          · cases hrun
            exact ⟨rfl, rfl⟩
  · cases hrun
    exact ⟨rfl, rfl⟩

theorem itrunc_super {len : ℕ} (hrun : sfsItrunc len w = .ok w') : SuperKept w w' := by
  unfold sfsItrunc at hrun
  dsimp only at hrun
  generalize blocksOf len % 2^32 = b at hrun
  cases hloop : directLoop b SFS_NDIRECT 0 w with
  | error stop => simp [hloop] at hrun
  | ok w₁ =>
    simp only [hloop] at hrun
    cases hind : indirectTrunc b w₁ with
    | error stop => simp [hind] at hrun
    | ok w₂ =>
      simp only [hind, Except.ok.injEq] at hrun
      subst hrun
      have hkept := (directLoop_super hloop).trans (indirectTrunc_super hind)
      exact ⟨hkept.1, hkept.2⟩

theorem sfsItrunc_evolves (h : Mounted w) (len : ℕ) : ∃ w', sfsItrunc len w = .ok w' ∧ Evolves w w' ∧
    w'.user = w.user ∧ w'.size = len % 2^32 := by
  obtain ⟨w₁, hrun, hdiscards, hind⟩ := sfsItrunc_cuts h len
  have hsize : len % 2^32 < 2^32 := Nat.mod_lt _ (by decide)
  have hused : ∀ e, w₁.freemap e = true → w.freemap e = true := by
    intro e he
    by_contra hfree
    rw [hdiscards.fewer e (by simpa using hfree)] at he
    cases he
  have hmain : Evolves w w₁ := by
    refine ⟨hdiscards.mounted, hdiscards.kept.nbits, hdiscards.kept.nblocks, hdiscards.kept.dBlocks, ?_, ?_⟩
    · intro e he
      by_cases hzero : e = 0
      · subst hzero
        obtain ⟨hbit, hdisk⟩ := itrunc_super hrun
        exact ⟨⟨hbit.trans he.1, fun ho => ho.1 rfl⟩, hdisk⟩
      · obtain ⟨⟨hbit, hblocks, hindirect⟩, hdisk⟩ := hdiscards.foreign e (outside_foreign he hzero)
        refine ⟨⟨hbit, ?_⟩, hdisk⟩
        rintro ⟨-, ⟨c, hc⟩ | hi⟩
        · exact hblocks c hc
        · exact hindirect hi
    · intro e he
      by_cases ho : Owns w e
      · right
        obtain ⟨hne, ⟨c, hc⟩ | hi⟩ := ho
        · refine ⟨hne, .inl ⟨c, ?_⟩⟩
          rw [← hc]
          refine hdiscards.stays c fun hp => ?_
          have hgone := hdiscards.freed c hp (hc ▸ hne)
          rw [hc, he] at hgone
          cases hgone
        · obtain hsame | ⟨-, -, hfree⟩ := hind.freed
          · exact ⟨hne, .inr (hsame.trans hi)⟩
          · rw [hi, he] at hfree
            cases hfree
      · exact .inl ⟨hused e he, ho⟩
  exact ⟨_, hrun, hmain.congr hsize w₁.user, hdiscards.kept.user, rfl⟩

/-- A volume on which the position of every block has 32 bits. -/
def Small (w : World) : Prop := w.nblocks ≤ 2^23

theorem Evolves.small (h : Evolves w w') (hs : Small w) : Small w' := by
  unfold Small
  rwa [h.nblocks]

/-- What a transfer may do to a file: a read changes the caller's memory only. -/
structure Passes (rw : Rw) (w w' : World) : Prop where
  evolves : Evolves w w'
  size : w'.size = w.size
  read : rw = .read → ∃ m, w' = { w with user := m }

/-- A transfer has gone on by `k` bytes, or has met an error. -/
def Moves (k : ℕ) (u : Uio) (w : World) (r : IoResult) : Prop :=
  ∃ e u' w', r = .ok (e, u', w') ∧ Passes u.rw w w' ∧ u'.rw = u.rw ∧ (e = none → u' = u.advance k)

variable {rw' : Rw}

theorem Passes.refl (h : Mounted w) : Passes rw' w w := ⟨Evolves.refl h, rfl, fun _ => ⟨w.user, rfl⟩⟩

theorem Passes.trans (h : Passes rw' w w') (h' : Passes rw' w' w'') : Passes rw' w w'' := by
  refine ⟨h.evolves.trans h'.evolves, h'.size.trans h.size, fun hread => ?_⟩
  obtain ⟨m, rfl⟩ := h.read hread
  obtain ⟨m', rfl⟩ := h'.read hread
  exact ⟨m', rfl⟩

theorem Passes.withUser (h : Passes rw' w w') (m : UserMemory) : Passes rw' w { w' with user := m } := by
  refine ⟨h.evolves.withUser m, h.size, fun hread => ?_⟩
  obtain ⟨m', rfl⟩ := h.read hread
  exact ⟨m, rfl⟩

/-- Looking for a block to read it does nothing else. -/
theorem bmap_passes (h : Mounted w) (rw' : Rw) (c : ℕ) :
    ∃ res w', sfsBmap c (rw' = .write) w = .ok (res, w') ∧ Passes rw' w w' ∧ ∀ d, res = .ok d → mapped w' c = d := by
  obtain ⟨res, w', hrun, hm⟩ := sfsBmap_maps h c (rw' = .write)
  refine ⟨res, w', hrun, ⟨hm.evolves, hm.size, fun hread => ⟨w.user, ?_⟩⟩, hm.own⟩
  subst hread
  by_cases hc : maxBlocks ≤ c
  · rw [SfsOffsets.sfsBmap_beyond hc] at hrun
    cases hrun
    rfl
  · have hlook : sfsBmap c false w = .ok (res, w') := by simpa using hrun
    rw [sfsBmap_read h.sound (Nat.lt_of_not_le hc)] at hlook
    cases hlook
    rfl

theorem Uio.advance_zero (u : Uio) : u.advance 0 = u := by
  cases u
  simp [Uio.advance]

theorem Uio.advance_advance (u : Uio) (j k : ℕ) : (u.advance j).advance k = u.advance (j+k) := by
  simp only [Uio.advance, Uio.mk.injEq, and_true]
  omega

theorem Moves.stay (h : Mounted w) : Moves 0 u w (.ok (none, u, w)) :=
  ⟨none, u, w, rfl, .refl h, rfl, fun _ => (Uio.advance_zero u).symm⟩

theorem Moves.fail (hp : Passes u.rw w w') (e : Errno) (hrw : u'.rw = u.rw) : Moves k u w (.ok (some e, u', w')) :=
  ⟨some e, u', w', rfl, hp, hrw, by simp⟩

/-- What comes next starts where this has ended. -/
theorem Moves.andThen {j : ℕ} {next : Uio → World → IoResult} (h : Moves j u w r)
    (hnext : ∀ w', Evolves w w' → Moves k (u.advance j) w' (next (u.advance j) w')) : Moves (j+k) u w (andThen r next) := by
  obtain ⟨e, u₁, w₁, rfl, hp, hrw, hgo⟩ := h
  cases e with
  | some e => exact .fail hp e hrw
  | none =>
    obtain rfl := hgo rfl
    obtain ⟨e, u₂, w₂, hrun, hp₂, hrw₂, hgo₂⟩ := hnext w₁ hp.evolves
    refine ⟨e, u₂, w₂, hrun, hp.trans hp₂, hrw₂, fun he => ?_⟩
    rw [hgo₂ he, Uio.advance_advance]

theorem uiomove_cases (ptr : Buffer) (m : UserMemory) (hn : n ≤ u.resid) :
    ∃ e ptr' u' m', uiomove ptr n u m = (e, ptr', u', m') ∧ u'.rw = u.rw ∧ (e = none → u' = u.advance n) := by
  unfold uiomove
  split
  · next hzero =>
    obtain rfl : n = 0 := by omega
    exact ⟨none, ptr, u, m, rfl, rfl, fun _ => (Uio.advance_zero u).symm⟩
  · cases hrw : u.rw with
    | read =>
      rcases copyout ptr u.base n m with ⟨_ | e, m'⟩
      · exact ⟨none, ptr, u.advance n, m', rfl, hrw, fun _ => rfl⟩
      · exact ⟨some e, ptr, u, m', rfl, hrw, by simp⟩
    | write =>
      rcases copyin m u.base n ptr with ⟨_ | e, ptr'⟩
      · exact ⟨none, ptr', u.advance n, m, rfl, hrw, fun _ => rfl⟩
      · exact ⟨some e, ptr', u, m, rfl, hrw, by simp⟩

theorem zeros_cases (mem : UserMemory) (hn : n ≤ u.resid) :
    ∃ e u' m', uiomovezeros n u mem = (e, u', m') ∧ u'.rw = u.rw ∧ (e = none → u' = u.advance n) := by
  induction n using Nat.strong_induction_on generalizing u mem with
  | _ n ih =>
    unfold uiomovezeros
    split
    · next hzero =>
      subst hzero
      exact ⟨none, u, mem, rfl, rfl, fun _ => (Uio.advance_zero u).symm⟩
    · next hzero =>
      obtain ⟨e, ptr', u₁, m₁, hmove, hrw, hgo⟩ := uiomove_cases zeros mem (show min 16 n ≤ u.resid by omega)
      simp only [hmove]
      cases e with
      | some e => exact ⟨some e, u₁, m₁, rfl, hrw, by simp⟩
      | none =>
        obtain rfl := hgo rfl
        have hleft : n - min 16 n ≤ (u.advance (min 16 n)).resid := by
          show _ ≤ u.resid - min 16 n
          omega
        obtain ⟨e, u₂, m₂, hrest, hrw₂, hgo₂⟩ := ih (n - min 16 n) (by omega) m₁ hleft
        refine ⟨e, u₂, m₂, hrest, hrw₂, fun he => ?_⟩
        rw [hgo₂ he, Uio.advance_advance]
        congr 1
        omega

theorem bmap_nonzero (h : WellFormed w) (hrun : sfsBmap c true w = .ok (.ok d, w')) : d ≠ 0 := by
  have hspec := sfsBmap_spec h c
  rw [hrun] at hspec
  cases hspec with
  | maps _ _ _ _ hm => exact hm.nonzero

theorem partialio_moves (h : Mounted w) {skip len : ℕ} (hskip : skip + len ≤ SFS_BLOCKSIZE) (hlen : len ≤ u.resid) :
    Moves len u w (sfsPartialio skip len u w) := by
  obtain ⟨res, w₁, hrun, hp, hmap⟩ := bmap_passes h u.rw (fileblock u)
  simp only [sfsPartialio, if_neg (Nat.not_lt.mpr hskip), hrun]
  cases res with
  | error e => exact .fail hp e rfl
  | ok d =>
    have hown := hmap d rfl
    have hmounted := hp.evolves.mounted
    obtain ⟨iobuf, hload⟩ : ∃ iobuf, loadBlock u.rw d w₁ = .ok iobuf := by
      unfold loadBlock
      by_cases hd : d = 0
      · cases hrw : u.rw with
        | read => exact ⟨zeros, by simp [hd]⟩
        | write =>
          rw [hrw] at hrun
          exact absurd hd (bmap_nonzero h.sound (by simpa using hrun))
      · rw [if_neg hd]
        exact ⟨_, sfsReadblock_ok hmounted.sound (hown ▸ hmounted.sound.held _ (hown ▸ hd)).1⟩
    obtain ⟨e, ptr, u₁, m, hmove, hrw, hgo⟩ :=
      uiomove_cases (fun i => iobuf (skip + i)) w₁.user hlen
    simp only [hload, hmove]
    cases e with
    | some e => exact .fail (hp.withUser m) e hrw
    | none =>
      dsimp only
      split
      · next hwrite =>
        have hd : d ≠ 0 := by
          rw [hwrite] at hrun
          exact bmap_nonzero h.sound (by simpa using hrun)
        obtain ⟨hblock, hev, -⟩ := write_evolves (w := { w₁ with user := m }) (hp.withUser m).evolves.mounted hown hd
          (fun i => if skip ≤ i then ptr (i - skip) else iobuf i)
        rw [hblock]
        refine ⟨none, u₁, _, rfl, ⟨(hp.withUser m).evolves.trans hev, hp.size, fun hread => ?_⟩, hrw, hgo⟩
        rw [hwrite] at hread
        cases hread
      · exact ⟨none, u₁, _, rfl, hp.withUser m, hrw, hgo⟩

/-- A whole block of a small volume, through the device's buffer. -/
theorem lhdIo_moves (h : Mounted w) (hs : Small w) (hc : mapped w c = d) (hd : d ≠ 0) (base : ℕ) (rw' : Rw) :
    Moves SFS_BLOCKSIZE ⟨base, d * SFS_BLOCKSIZE % 2^32, SFS_BLOCKSIZE, rw'⟩ w
      (lhdIo ⟨base, d * SFS_BLOCKSIZE % 2^32, SFS_BLOCKSIZE, rw'⟩ w) := by
  have hlt := (h.sound.held c (hc ▸ hd)).1
  rw [hc] at hlt
  have hdevice := h.sound.device
  have hwords := h.sound.words
  unfold Small at hs
  have hoff : d * SFS_BLOCKSIZE % 2^32 = d * SFS_BLOCKSIZE := Nat.mod_eq_of_lt (by unfold SFS_BLOCKSIZE; omega)
  have hsector : d * SFS_BLOCKSIZE / LHD_SECTSIZE % 2^32 = d := by
    unfold SFS_BLOCKSIZE LHD_SECTSIZE
    omega
  have hone : SFS_BLOCKSIZE / LHD_SECTSIZE = 0+1 := rfl
  have haligned : ¬(d * SFS_BLOCKSIZE % LHD_SECTSIZE ≠ 0 ∨ SFS_BLOCKSIZE % LHD_SECTSIZE ≠ 0) := by
    unfold SFS_BLOCKSIZE LHD_SECTSIZE
    omega
  simp only [hoff, lhdIo, hsector, hone, if_neg haligned]
  rw [if_neg (by omega)]
  cases rw' with
  | read =>
    obtain ⟨e, ptr, u₁, m, hmove, hrw, hgo⟩ := uiomove_cases (w.disk d) w.user
      (show LHD_SECTSIZE ≤ (⟨base, d * SFS_BLOCKSIZE, SFS_BLOCKSIZE, .read⟩ : Uio).resid from Nat.le_refl _)
    simp only [lhdSectors, hmove]
    cases e with
    | some e => exact .fail ((Passes.refl h).withUser m) e hrw
    | none => exact ⟨none, u₁, _, rfl, (Passes.refl h).withUser m, hrw, hgo⟩
  | write =>
    obtain ⟨e, ptr, u₁, m, hmove, hrw, hgo⟩ := uiomove_cases zeros w.user
      (show LHD_SECTSIZE ≤ (⟨base, d * SFS_BLOCKSIZE, SFS_BLOCKSIZE, .write⟩ : Uio).resid from Nat.le_refl _)
    simp only [lhdSectors, hmove]
    cases e with
    | some e => exact .fail ((Passes.refl h).withUser m) e hrw
    | none =>
      obtain ⟨-, hev, -⟩ := write_evolves (w := { w with user := m }) ((Evolves.refl h).withUser m).mounted hc hd ptr
      exact ⟨none, u₁, _, rfl, ⟨((Evolves.refl h).withUser m).trans hev, rfl, by simp⟩, hrw, hgo⟩

theorem blockio_moves (h : Mounted w) (hs : Small w) (hresid : SFS_BLOCKSIZE ≤ u.resid) :
    Moves SFS_BLOCKSIZE u w (sfsBlockio u w) := by
  obtain ⟨res, w₁, hrun, hp, hmap⟩ := bmap_passes h u.rw (fileblock u)
  simp only [sfsBlockio, hrun]
  cases res with
  | error e => exact .fail hp e rfl
  | ok d =>
    have hown := hmap d rfl
    dsimp only
    split
    · next hd =>
      have hread : u.rw = .read := by
        cases hrw : u.rw with
        | read => rfl
        | write =>
          rw [hrw] at hrun
          exact absurd hd (bmap_nonzero h.sound (by simpa using hrun))
      obtain ⟨e, u₁, m, hzero, hrw, hgo⟩ := zeros_cases w₁.user hresid
      rw [if_pos hread, hzero]
      exact ⟨e, u₁, _, rfl, hp.withUser m, hrw, hgo⟩
    · next hd =>
      obtain ⟨e, u₁, w₂, hio, hp₂, hrw, hgo⟩ :=
        lhdIo_moves hp.evolves.mounted (hp.evolves.small hs) hown hd u.base u.rw
      rw [if_neg (Nat.not_lt.mpr hresid), hio]
      refine ⟨e, _, w₂, rfl, hp.trans hp₂, hrw, fun he => ?_⟩
      have hu := hgo he
      subst hu
      simp only [Uio.advance, Uio.mk.injEq, true_and, and_true]
      omega

theorem blockLoop_moves {l : ℕ} (h : Mounted w) (hs : Small w) (hresid : l * SFS_BLOCKSIZE ≤ u.resid) :
    Moves (l * SFS_BLOCKSIZE) u w (blockLoop l u w) := by
  induction l generalizing u w with
  | zero =>
    rw [Nat.zero_mul]
    exact .stay h
  | succ l ih =>
    rw [Nat.add_mul, Nat.one_mul] at hresid ⊢
    rw [Nat.add_comm]
    refine (blockio_moves h hs (by omega)).andThen fun w' hev => ih hev.mounted (hev.small hs) ?_
    show _ ≤ u.resid - SFS_BLOCKSIZE
    omega

theorem transferAligned_moves (h : Mounted w) (hs : Small w) (haligned : u.resid = 0 ∨ u.offset % SFS_BLOCKSIZE = 0) :
    Moves u.resid u w (transferAligned u w) := by
  unfold transferAligned
  split
  · next hzero =>
    rw [hzero]
    exact .stay h
  · next hne =>
    have hsplit : u.resid = u.resid / SFS_BLOCKSIZE * SFS_BLOCKSIZE + u.resid % SFS_BLOCKSIZE := by
      rw [Nat.mul_comm]
      exact (Nat.div_add_mod _ _).symm
    rw [if_neg (fun hno => hno (haligned.resolve_left hne))]
    conv => arg 1; rw [hsplit]
    refine (blockLoop_moves h hs (by omega)).andThen fun w' hev => ?_
    have hleft : (u.advance (u.resid / SFS_BLOCKSIZE * SFS_BLOCKSIZE)).resid = u.resid % SFS_BLOCKSIZE := by
      show u.resid - _ = _
      omega
    have hshort : u.resid % SFS_BLOCKSIZE < SFS_BLOCKSIZE := Nat.mod_lt _ (by decide)
    rw [if_neg (by omega), hleft]
    split
    · exact partialio_moves hev.mounted (by omega) (by omega)
    · next hzero =>
      rw [show u.resid % SFS_BLOCKSIZE = 0 by omega]
      exact .stay hev.mounted

theorem transfer_moves (h : Mounted w) (hs : Small w) : Moves u.resid u w (transfer u w) := by
  have hmod : u.offset % SFS_BLOCKSIZE < SFS_BLOCKSIZE := Nat.mod_lt _ (by decide)
  unfold transfer
  dsimp only
  split
  · next hoff =>
    let len := min (SFS_BLOCKSIZE - u.offset % SFS_BLOCKSIZE) u.resid
    have hsplit : u.resid = len + (u.advance len).resid := by
      show u.resid = len + (u.resid - len)
      omega
    conv => arg 1; rw [hsplit]
    refine (partialio_moves h (by omega) (by omega)).andThen fun w' hev => ?_
    refine transferAligned_moves hev.mounted (hev.small hs) ?_
    show u.resid - len = 0 ∨ (u.offset + len) % SFS_BLOCKSIZE = 0
    simp only [len, SFS_BLOCKSIZE]
    omega
  · next hoff =>
    exact transferAligned_moves h hs (.inr (by omega))

/-- `sfs_io` on a small volume never stops the kernel, and a read changes no file. -/
theorem sfsIo_evolves (h : Mounted w) (hs : Small w) (u : Uio) :
    ∃ e u' w', sfsIo u w = .ok (e, u', w') ∧ Evolves w w' ∧ (u.rw = .read → ∃ m, w' = { w with user := m }) := by
  unfold sfsIo
  dsimp only
  split
  · exact ⟨none, u, w, rfl, Evolves.refl h, fun _ => ⟨w.user, rfl⟩⟩
  · obtain ⟨e, u₁, w₁, hrun, hp, -, -⟩ :=
      transfer_moves (u := { u with resid := u.resid - if u.rw = .read then u.offset + u.resid - w.size else 0 }) h hs
    rw [hrun]
    refine ⟨e, _, _, rfl, ?_, ?_⟩
    · split
      · exact hp.evolves.congr (Nat.mod_lt _ (by decide)) w₁.user
      · exact hp.evolves
    · intro hread
      rw [if_neg (by simp [hread])]
      exact hp.read hread

end OS161.SfsOwnership
