import OS161.SfsSync

/-!
# Mounting a volume

`sfs_domount` reads the superblock and the map, and starts with an empty table of
vnodes. What a volume holds when it is unmounted it holds when it is mounted again,
and a volume that mksfs has made holds an empty root directory.
-/

set_option autoImplicit false

namespace OS161.SfsVolume

open Function OS161.Vfs OS161.CopyInOut OS161.Sfs OS161.SfsTruncate OS161.SfsOwnership OS161.SfsDir
open OS161.Sfsck (SFS_SUPER_BLOCK SFS_ROOTDIR_INO SFS_FREEMAP_START SFS_ROUNDUP Dinode Alike)
open OS161.SfsckFreemap (sbFreemapblocks SFS_BITSPERBLOCK)
open OS161.SfsckMain (Superblock SFS_MAGIC)
open OS161.Mksfs (shown Fresh Taken roundup_bits)
open OS161.FreshVolume (fresh_bare)

structure Device where
  blocksize : ℕ
  blocks : ℕ
  disk : ℕ → Block

/-- The volume before anything is known about it. -/
def Device.bare (dev : Device) : World := ⟨0, fun _ => 0, 0, fun _ => false, 0, 0, dev.disk, dev.blocks, noMemory⟩

/-- Which allocations of a mount succeed: of the object with its table, and of the bitmap. -/
structure MountMemory where
  object : Bool
  bitmap : Bool

/-- `sfs_freemapio` for reading, with `left` blocks to go from `j` on. -/
def freemapRead (w : World) : (left j : ℕ) → (ℕ → UInt8) → Except Stop (ℕ → UInt8)
  | 0, _, freemapdata => .ok freemapdata
  | left+1, j, freemapdata =>
    match sfsReadblock (SFS_FREEMAP_START+j) w with
    | .error stop => .error stop
    | .ok block => freemapRead w left (j+1) fun k =>
      if SFS_BLOCKSIZE*j ≤ k ∧ k < SFS_BLOCKSIZE*(j+1) then block (k - SFS_BLOCKSIZE*j) else freemapdata k

/-- The volume with its bitmap loaded, and nothing in use. -/
def Device.volume (dev : Device) (nblocks : ℕ) (freemap : ℕ → Bool) : Volume where
  freemap := freemap
  freemapdirty := false
  nbits := SFS_ROUNDUP nblocks SFS_BITSPERBLOCK
  nblocks := nblocks
  dBlocks := dev.blocks
  disk := dev.disk
  vnodes := []
  vnode _ := ⟨false, 0, 0⟩
  nextVnode := 0
  core _ := .ofBlock zeros
  dirty _ := false

-- a volume larger than its device is only warned about
def sfsDomount (dev : Device) (mem : MountMemory) : Except Stop (Except Errno Volume) :=
  if dev.blocksize ≠ SFS_BLOCKSIZE then .ok (.error .enxio)
  else if mem.object = false then .ok (.error .enomem)
  else match sfsReadblock SFS_SUPER_BLOCK dev.bare with
    | .error stop => .error stop
    | .ok block =>
      let sb := Superblock.ofBlock block
      if sb.magic ≠ SFS_MAGIC then .ok (.error .einval)
      else if mem.bitmap = false then .ok (.error .enomem)
      else match freemapRead dev.bare (sbFreemapblocks sb.nblocks) 0 (fun _ => 0) with
        | .error stop => .error stop
        | .ok freemapdata => .ok (.ok (dev.volume sb.nblocks (shown freemapdata)))

/-- The error, or the device, which keeps what has been written. -/
def sfsUnmount (s : Volume) : Except Stop (Except Errno Device) :=
  if s.vnodes ≠ [] then .ok (.error .ebusy)
  else if s.freemapdirty then .error .panic
  else .ok (.ok ⟨SFS_BLOCKSIZE, s.dBlocks, s.disk⟩)

variable {w : World} {s s' : Volume} {dev : Device} {mem : MountMemory} {disk : ℕ → Block} {b i j n : ℕ}

theorem freemapRead_reads (left : ℕ) (data : ℕ → UInt8) (hwords : w.dBlocks < 2^32) (hroom : SFS_FREEMAP_START + j + left ≤ w.dBlocks) :
    ∃ data', freemapRead w left j data = .ok data' ∧
      (∀ k, SFS_BLOCKSIZE*j ≤ k → k < SFS_BLOCKSIZE*(j+left) → data' k = w.disk (SFS_FREEMAP_START + k/SFS_BLOCKSIZE) (k%SFS_BLOCKSIZE)) ∧
      ∀ k, k < SFS_BLOCKSIZE*j → data' k = data k := by
  unfold SFS_BLOCKSIZE
  induction left generalizing j data with
  | zero => exact ⟨data, rfl, fun k hk hlt => absurd hlt (by omega), fun _ _ => rfl⟩
  | succ left ih =>
    have hread : sfsReadblock (SFS_FREEMAP_START+j) w = .ok (w.disk (SFS_FREEMAP_START+j)) := if_neg (by omega)
    obtain ⟨data', hrun, hdata, hbelow⟩ := ih (j := j+1) (fun k =>
      if 512*j ≤ k ∧ k < 512*(j+1) then w.disk (SFS_FREEMAP_START+j) (k - 512*j) else data k) (by omega)
    refine ⟨data', ?_, fun k hk hlt => ?_, fun k hk => ?_⟩
    · simp only [freemapRead, hread]
      exact hrun
    · by_cases hself : k < 512*(j+1)
      · rw [hbelow k hself, if_pos ⟨hk, hself⟩, show k/512 = j by omega, show k%512 = k - 512*j by omega]
      · exact hdata k (by omega) (by omega)
    · rw [hbelow k (by omega), if_neg (by omega)]

/-- The bits that have been read are those of the map on the disk. -/
theorem domount_mounts (dev : Device) (hblocksize : dev.blocksize = SFS_BLOCKSIZE) (hmem : mem = ⟨true, true⟩) (hwords : dev.blocks < 2^32)
    (hmagic : (Superblock.ofBlock (dev.disk SFS_SUPER_BLOCK)).magic = SFS_MAGIC)
    (hn : (Superblock.ofBlock (dev.disk SFS_SUPER_BLOCK)).nblocks = n) (hroom : SFS_FREEMAP_START + sbFreemapblocks n ≤ dev.blocks) :
    ∃ freemap, sfsDomount dev mem = .ok (.ok (dev.volume n freemap)) ∧
      ∀ b < sbFreemapblocks n * SFS_BITSPERBLOCK, freemap b = mapBit dev.disk b := by
  obtain ⟨data, hdata, hmap, -⟩ := freemapRead_reads (w := dev.bare) (j := 0) (sbFreemapblocks n) (fun _ => 0) hwords
    (show _ + 0 + _ ≤ dev.blocks by omega)
  have hsuper : sfsReadblock SFS_SUPER_BLOCK dev.bare = .ok (dev.disk SFS_SUPER_BLOCK) := by
    refine if_neg ?_
    show ¬dev.blocks < _
    unfold SFS_SUPER_BLOCK
    unfold SFS_FREEMAP_START at hroom
    omega
  refine ⟨shown data, ?_, fun b hb => ?_⟩
  · subst hmem
    rw [sfsDomount, if_neg (fun hno => hno hblocksize), if_neg (by simp), hsuper]
    simp only [hmagic, hn, hdata]
    rfl
  · unfold shown mapBit
    unfold SFS_BITSPERBLOCK at hb ⊢
    unfold SFS_BLOCKSIZE at hmap
    rw [hmap (b/8) (Nat.zero_le _) (by omega), show b/8/512 = b/4096 by omega, show b/8%512 = b%4096/8 by omega]
    rfl

/-! A volume that is mounted again. -/

/-- What a volume is like when it has just been mounted: sound, with nothing in use. -/
structure Starts (s : Volume) : Prop where
  ready : Ready s
  laid : Laid s
  map : MapKept s
  empty : s.vnodes = []
  dead : ∀ v, (s.vnode v).live = false

theorem volume_inodeOf (freemap : ℕ → Bool) (j : ℕ) : inodeOf (dev.volume n freemap) j = .ofBlock (dev.disk j) := rfl

theorem volume_tabled (freemap : ℕ → Bool) : Tabled (dev.volume n freemap) := by
  refine ⟨?_, ?_, ?_, List.nodup_nil⟩ <;> exact fun _ hv => absurd hv List.not_mem_nil

theorem volume_clean (freemap : ℕ → Bool) : SfsVolume.Clean (dev.volume n freemap) := fun _ hv => absurd hv List.not_mem_nil

theorem volume_map {freemap : ℕ → Bool} (h : ∀ b < sbFreemapblocks n * SFS_BITSPERBLOCK, freemap b = mapBit dev.disk b) :
    MapKept (dev.volume n freemap) := by
  intro _ b hb
  refine (h b ?_).symm
  rw [← roundup_bits]
  exact hb

/-- A volume that shows the same files. -/
structure Shows (s s' : Volume) : Prop where
  dir : dir s' = dir s
  files : files s' = files s
  bytes : ∀ i, Present s i → ∀ x, byteAt (fileOf s' i) x = byteAt (fileOf s i) x
  size : ∀ i, Present s i → (inodeOf s' i).size = (inodeOf s i).size

theorem Shows.trans {s'' : Volume} (h : Shows s s') (h' : Shows s' s'') (hpresent : ∀ i, Present s i → Present s' i) : Shows s s'' :=
  ⟨h'.dir.trans h.dir, h'.files.trans h.files, fun i hi x => (h'.bytes i (hpresent i hi) x).trans (h.bytes i hi x),
    fun i hi => (h'.size i (hpresent i hi)).trans (h.size i hi)⟩

/-- The disk alone has all files once the inodes have been written back. -/
theorem volume_alike (h : Ready s) (hclean : ∀ v ∈ s.vnodes, s.dirty v = false) (freemap : ℕ → Bool) {i : ℕ} :
    Alike (inodeOf (Device.volume ⟨SFS_BLOCKSIZE, s.dBlocks, s.disk⟩ s.nblocks freemap) i) (inodeOf s i) ∧
      SameFile (fileOf s i) (fileOf (Device.volume ⟨SFS_BLOCKSIZE, s.dBlocks, s.disk⟩ s.nblocks freemap) i) := by
  have hinode : Alike (Dinode.ofBlock (s.disk i)) (inodeOf s i) := by
    by_cases hl : Loaded s i
    · obtain ⟨v, hv, rfl⟩ := hl
      rw [inodeOf_loaded h.table hv]
      exact (h.sound.clean v hv (hclean v hv)).alike
    · rw [inodeOf_unloaded hl]
      exact .refl _
  exact ⟨hinode, mapped_same hinode.indirect hinode.direct fun _ => rfl, hinode.indirect, fun _ _ => rfl⟩

theorem volume_shows (h : Ready s) (hclean : ∀ v ∈ s.vnodes, s.dirty v = false) (freemap : ℕ → Bool) :
    Shows s (Device.volume ⟨SFS_BLOCKSIZE, s.dBlocks, s.disk⟩ s.nblocks freemap) := by
  have hdir := dir_same (volume_alike h hclean freemap).2 (volume_alike h hclean freemap).1.size
  exact ⟨hdir, files_dir hdir, fun _ _ => (volume_alike h hclean freemap).2.bytes,
    fun _ _ => (volume_alike h hclean freemap).1.size⟩

/-- With nothing in use, and the map written back too, the volume starts again as it was. -/
theorem volume_starts (h : Ready s) (hl : Laid s) (hk : MapKept s) (hempty : s.vnodes = []) (hclean : s.freemapdirty = false)
    {freemap : ℕ → Bool} (hmap : ∀ b < sbFreemapblocks s.nblocks * SFS_BITSPERBLOCK, freemap b = mapBit s.disk b) :
    Starts (Device.volume ⟨SFS_BLOCKSIZE, s.dBlocks, s.disk⟩ s.nblocks freemap) := by
  have hnone : ∀ v, v ∉ s.vnodes := fun v hv => by simp [hempty] at hv
  have hshows := volume_shows h (fun v hv => absurd hv (hnone v)) freemap
  have hinode : ∀ i, inodeOf (Device.volume ⟨SFS_BLOCKSIZE, s.dBlocks, s.disk⟩ s.nblocks freemap) i = inodeOf s i := by
    intro i
    have hunloaded : ¬Loaded s i := fun ⟨v, hv, _⟩ => hnone v hv
    exact (inodeOf_unloaded hunloaded).symm
  have hsame : SameInodes s (Device.volume ⟨SFS_BLOCKSIZE, s.dBlocks, s.disk⟩ s.nblocks freemap) := by
    refine ⟨fun b hb => ?_, (roundup_bits _).trans hl.bits.symm, rfl, rfl, fun i => ?_, fun i _ => ?_, fun i _ => ?_⟩
    · rw [hl.bits] at hb
      exact (hmap b hb).trans (hk hclean b (by rwa [hl.bits]))
    · refine present_congr hshows.dir (fun j => iff_of_false ?_ fun ⟨v, hv, _⟩ => hnone v hv) i
      exact fun ⟨v, hv, _⟩ => absurd hv List.not_mem_nil
    · exact (volume_alike h (fun v hv => absurd hv (hnone v)) freemap).2
    · rw [hinode]
      exact .refl _
  exact ⟨⟨h.sound.equal hsame (fun j _ => by rw [hinode]) (volume_clean freemap), volume_tabled freemap⟩,
    hl.congr hsame.nbits hsame.nblocks, volume_map hmap, rfl, fun _ => rfl⟩

/-- The superblock that mksfs has written is still there. -/
def Labelled (s : Volume) : Prop := (Superblock.ofBlock (s.disk SFS_SUPER_BLOCK)).magic = SFS_MAGIC ∧
  (Superblock.ofBlock (s.disk SFS_SUPER_BLOCK)).nblocks = s.nblocks

theorem Fixed.labelled (h : Fixed s s') (hpos : 0 < s.nblocks) (hl : Labelled s) : Labelled s' := by
  unfold Labelled
  rw [h.super hpos, h.nblocks]
  exact hl

/-- Whatever is in use, what has been written back can be mounted as it is on the disk, and shows the same files. -/
theorem disk_mounts (h : Ready s) (hl : Laid s) (hlabel : Labelled s) (hclean : ∀ v ∈ s.vnodes, s.dirty v = false) :
    ∃ freemap, sfsDomount ⟨SFS_BLOCKSIZE, s.dBlocks, s.disk⟩ ⟨true, true⟩ =
        .ok (.ok (Device.volume ⟨SFS_BLOCKSIZE, s.dBlocks, s.disk⟩ s.nblocks freemap)) ∧
      (∀ b < sbFreemapblocks s.nblocks * SFS_BITSPERBLOCK, freemap b = mapBit s.disk b) ∧
      Shows s (Device.volume ⟨SFS_BLOCKSIZE, s.dBlocks, s.disk⟩ s.nblocks freemap) := by
  have hroot := h.sound.blocks.files _ (present_root s)
  have hdevice : s.nblocks ≤ s.dBlocks := hroot.device
  obtain ⟨freemap, hmount, hmap⟩ := domount_mounts ⟨SFS_BLOCKSIZE, s.dBlocks, s.disk⟩ rfl rfl hroot.words hlabel.1
    hlabel.2 (Nat.le_trans hl.room hdevice)
  exact ⟨freemap, hmount, hmap, volume_shows h hclean freemap⟩

/-- Unmounting what has been written back, and mounting it again. -/
theorem unmount_remounts (h : Ready s) (hl : Laid s) (hk : MapKept s) (hlabel : Labelled s) (hempty : s.vnodes = [])
    (hclean : s.freemapdirty = false) : ∃ dev s', sfsUnmount s = .ok (.ok dev) ∧
      sfsDomount dev ⟨true, true⟩ = .ok (.ok s') ∧ Starts s' ∧ Labelled s' ∧ Shows s s' := by
  obtain ⟨freemap, hmount, hmap, hshows⟩ := disk_mounts h hl hlabel fun v hv => by simp [hempty] at hv
  refine ⟨_, _, ?_, hmount, volume_starts h hl hk hempty hclean hmap, hlabel, hshows⟩
  simp [sfsUnmount, hempty, hclean]

/-! A volume that mksfs has made. -/

theorem fresh_laid (h : Fresh n disk) (hpos : 0 < sbFreemapblocks n) :
    n ≤ sbFreemapblocks n * SFS_BITSPERBLOCK ∧ n ≤ 2^23 ∧ SFS_FREEMAP_START + sbFreemapblocks n ≤ n := by
  have hword : n < 2^32 := by
    rw [← h.nblocks]
    exact Sfsck.word_lt fun i => disk SFS_SUPER_BLOCK (4+i)
  have hmap := h.mapblocks
  have hroom := h.room hpos
  rw [← roundup_bits]
  unfold sbFreemapblocks at hpos hmap hroom ⊢
  unfold Mksfs.MAXFREEMAPBLOCKS at hmap
  unfold SFS_ROUNDUP SFS_BITSPERBLOCK at *
  exact ⟨by omega, by omega, hroom⟩

/-- A map as mksfs writes it. -/
theorem fresh_map (h : Fresh n disk) (hb : b < sbFreemapblocks n * SFS_BITSPERBLOCK) : mapBit disk b = true ↔ Taken n b := by
  have hbit := h.map (b / SFS_BITSPERBLOCK) (Nat.div_lt_of_lt_mul (by rwa [Nat.mul_comm])) (b % SFS_BITSPERBLOCK / 8)
    (by unfold SFS_BITSPERBLOCK SFS_BLOCKSIZE; omega) (b % 8) (Nat.mod_lt _ (by decide))
  rw [show b / SFS_BITSPERBLOCK * SFS_BITSPERBLOCK + b % SFS_BITSPERBLOCK / 8 * 8 + b % 8 = b by
    unfold SFS_BITSPERBLOCK
    omega] at hbit
  exact hbit

/-- An empty root directory, and nothing else. -/
structure Barren (n : ℕ) (s : Volume) : Prop where
  nblocks : s.nblocks = n
  nbits : s.nbits = sbFreemapblocks n * SFS_BITSPERBLOCK
  vnodes : s.vnodes = []
  root : FreshVolume.Bare (inodeOf s SFS_ROOTDIR_INO)
  taken : ∀ b < s.nbits, s.freemap b = true ↔ Taken n b

theorem Barren.indirect (h : Barren n s) : (fileOf s SFS_ROOTDIR_INO).indirect = 0 := h.root.indirect

theorem Barren.size (h : Barren n s) : (fileOf s SFS_ROOTDIR_INO).size = 0 := h.root.size

theorem Barren.mapped (h : Barren n s) (c : ℕ) : mapped (fileOf s SFS_ROOTDIR_INO) c = 0 := by
  unfold Sfs.mapped
  split
  · next hc => exact h.root.direct c hc
  · rw [if_pos h.indirect, ite_self]

theorem Barren.owns (h : Barren n s) (e : ℕ) : ¬Owns (fileOf s SFS_ROOTDIR_INO) e := by
  rintro ⟨hne, ⟨c, hc⟩ | hi⟩
  · exact hne (hc.symm.trans (h.mapped c))
  · exact hne (hi.symm.trans h.indirect)

theorem Barren.dir (h : Barren n s) (k : ℕ) : dir s k = none := by
  refine if_neg ?_
  rintro ⟨hlt, -⟩
  rw [slots, h.size, Nat.zero_div] at hlt
  exact absurd hlt (Nat.not_lt_zero k)

theorem Barren.present (h : Barren n s) (hi : Present s i) : i = SFS_ROOTDIR_INO := by
  obtain hi | ⟨v, hv, -⟩ | ⟨k, m, hk⟩ := hi
  · exact hi
  · rw [h.vnodes] at hv
    exact absurd hv List.not_mem_nil
  · rw [h.dir] at hk
    cases hk

theorem Barren.free (h : Barren n s) {d : ℕ} (hd : Free (fileOf s SFS_ROOTDIR_INO) d) : 0 < d ∧ d < n := by
  obtain ⟨hlt, hclear⟩ := hd
  have hno : ¬Taken n d := fun ht => absurd (((h.taken d hlt).mpr ht).symm.trans hclear) (by decide)
  have hlow : ¬d < SFS_FREEMAP_START + sbFreemapblocks n := fun hlow => hno (.inl hlow)
  unfold SFS_FREEMAP_START at hlow
  refine ⟨by omega, ?_⟩
  by_contra hge
  exact hno (.inr ⟨Nat.le_of_not_lt hge, h.nbits ▸ hlt⟩)

theorem Barren.blocks (h : Barren n s) (hl : Laid s) (hbits : n ≤ s.nbits) (hsmall : n ≤ 2^23) (hdevice : n ≤ s.dBlocks)
    (hwords : s.dBlocks < 2^32) : Blocks s := by
  have hroom := hl.room
  rw [h.nblocks] at hroom
  refine ⟨by rwa [h.nblocks], by rwa [h.nblocks], ?_, ?_, ?_, ?_, ?_, ?_⟩
  · intro i hi
    obtain rfl := h.present hi
    refine ⟨by rw [h.size]; decide, ?_, ?_, hwords, ?_, ?_, ?_, ?_⟩
    · intro d hd
      show 0 < d ∧ d < s.nblocks
      rw [h.nblocks]
      exact h.free hd
    · show s.nblocks ≤ s.dBlocks
      rwa [h.nblocks]
    · exact fun c hc => absurd (h.mapped c) hc
    · exact fun hi => absurd h.indirect hi
    · exact fun c _ _ hc => absurd (h.mapped c) hc
    · exact fun c hc => absurd (h.mapped c) hc
  · intro i hi
    obtain rfl := h.present hi
    rw [h.nblocks]
    unfold SFS_FREEMAP_START at hroom
    unfold SFS_ROOTDIR_INO
    refine ⟨by omega, (h.taken 1 (by omega)).mpr (.inl (by unfold SFS_FREEMAP_START; omega)), ?_⟩
    unfold Reserved SFS_FREEMAP_START
    omega
  · intro i j hi _
    obtain rfl := h.present hi
    exact h.owns j
  · intro i j e hi _ he
    obtain rfl := h.present hi
    exact absurd he (h.owns e)
  · intro e hr
    rw [h.nblocks] at hr ⊢
    refine ⟨fun he => (h.taken e (by omega)).mpr ?_, fun i hi => ?_⟩
    · obtain rfl | ⟨-, hlt⟩ | hge := hr
      · exact .inl (Nat.lt_of_lt_of_le (by decide) (Nat.le_add_right _ _))
      · exact .inl hlt
      · omega
    · obtain rfl := h.present hi
      exact h.owns e
  · intro e he hbit
    rw [h.nblocks] at he ⊢
    obtain hlow | ⟨hge, -⟩ := (h.taken e (by omega)).mp hbit
    · by_cases hzero : e = 0
      · exact .inl (.inl hzero)
      · by_cases hroot : e = SFS_ROOTDIR_INO
        · exact .inr (.inl (.inl hroot))
        · unfold SFS_ROOTDIR_INO at hroot
          exact .inl (.inr (.inl ⟨by unfold SFS_FREEMAP_START; omega, hlow⟩))
    · omega

theorem Barren.names (h : Barren n s) : Names 0 0 0 s := by
  refine ⟨⟨?_, ?_, ?_⟩, h.root.type, ?_, ?_, ?_, ?_, ?_⟩
  · rw [h.size]
    rfl
  · rw [h.size]
    exact Nat.zero_le _
  · intro i j m a b hi
    have hno : SfsVolume.dir s i = some (m, a) := hi
    rw [h.dir] at hno
    cases hno
  · rw [h.root.linkcount]
    decide
  · exact fun j hj hne => absurd (h.present hj) hne
  · exact fun j hj hne => absurd (h.present hj) hne
  · exact fun _ hno => absurd (h.present hno) (by decide)
  · intro k m j hk
    rw [h.dir] at hk
    cases hk

/-- What mksfs has made can be mounted, and has no files. -/
theorem fresh_mounts (h : Fresh n disk) (hpos : 0 < sbFreemapblocks n) {blocks : ℕ} (hdevice : n ≤ blocks) (hwords : blocks < 2^32) :
    ∃ s, sfsDomount ⟨SFS_BLOCKSIZE, blocks, disk⟩ ⟨true, true⟩ = .ok (.ok s) ∧ Starts s ∧ Labelled s ∧
      files s = (fun _ => none) ∧ s.nblocks = n := by
  obtain ⟨hbits, hsmall, hroom⟩ := fresh_laid h hpos
  obtain ⟨freemap, hmount, hmap⟩ := domount_mounts ⟨SFS_BLOCKSIZE, blocks, disk⟩ rfl rfl hwords h.magic h.nblocks
    (Nat.le_trans hroom hdevice)
  have hnbits : (Device.volume ⟨SFS_BLOCKSIZE, blocks, disk⟩ n freemap).nbits = sbFreemapblocks n * SFS_BITSPERBLOCK := roundup_bits n
  have hbarren : Barren n (Device.volume ⟨SFS_BLOCKSIZE, blocks, disk⟩ n freemap) := by
    refine ⟨rfl, hnbits, rfl, fresh_bare h, fun b hb => ?_⟩
    rw [hnbits] at hb
    rw [← fresh_map h hb, ← hmap b hb]
    rfl
  have hlaid : Laid (Device.volume ⟨SFS_BLOCKSIZE, blocks, disk⟩ n freemap) := ⟨hnbits, hroom⟩
  have hblocks := hbarren.blocks hlaid (by rwa [hnbits]) hsmall hdevice hwords
  refine ⟨_, hmount, ⟨⟨⟨hblocks, hbarren.names, volume_clean freemap⟩, volume_tabled freemap⟩, hlaid, volume_map hmap, rfl,
    fun _ => rfl⟩, ⟨h.magic, h.nblocks⟩, funext fun name => files_none.mpr ?_, rfl⟩
  rintro i ⟨k, hk⟩
  rw [hbarren.dir] at hk
  cases hk

end OS161.SfsVolume
