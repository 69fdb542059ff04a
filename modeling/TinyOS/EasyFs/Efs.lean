import TinyOS.EasyFs.Bitmap
import TinyOS.EasyFs.Layout
import TinyOS.Lib.Region

/-!
# The layout of a file system

The arithmetic of `EasyFileSystem::create` and `get_disk_inode_pos` (`easy-fs/src/efs.rs`): where
the super block, the two bitmaps, the inode area and the data area lie. `layout_partition` says that
they tile the device if nothing overflows, and `layout_possible_iff` what a release build, in which
the sums wrap around, makes of any device.
-/

namespace TinyOS.EasyFs

/-- `INODE_BLOCK_CAPACITY`: how many inodes lie in a block of the inode area. -/
def inodeBlockCapacity : Nat := blockSz / diskInodeSize

/-- `struct EasyFileSystem`: the two bitmaps and where the two areas start. The device is passed
to the functions instead. -/
structure EasyFileSystem where
  inodeBitmap : Bitmap
  dataBitmap : Bitmap
  inodeAreaStartBlock : UInt32
  dataAreaStartBlock : UInt32
  deriving DecidableEq

/-- The sizes `create` writes into the super block: those of the inode area, the data bitmap and
the data area. -/
structure Sizes where
  inodeAreaBlocks : UInt32
  dataBitmapBlocks : UInt32
  dataAreaBlocks : UInt32
  deriving DecidableEq

/-- The part of `EasyFileSystem::create` before the first `get_block_cache`: where the regions
start and how long they are. -/
def layout (a : Arith) (totalBlocks inodeBitmapBlocks : UInt32) :
    Except Panic (Sizes × EasyFileSystem) := do
  let inodeBitmap : Bitmap := ⟨1, inodeBitmapBlocks.toNat⟩
  let inodeNum := inodeBitmap.maximum
  let inodeAreaBlocks ← a.asU32 ((inodeNum * diskInodeSize + blockSz - 1) / blockSz)
  let inodeTotalBlocks ← a.add inodeBitmapBlocks inodeAreaBlocks
  let dataTotalBlocks ← a.sub (← a.sub totalBlocks 1) inodeTotalBlocks
  let dataBitmapBlocks := (← a.add dataTotalBlocks 4096) / 4097
  let dataAreaBlocks ← a.sub dataTotalBlocks dataBitmapBlocks
  let dataBitmap : Bitmap := ⟨(← a.add 1 inodeTotalBlocks).toNat, dataBitmapBlocks.toNat⟩
  let inodeAreaStartBlock ← a.add 1 inodeBitmapBlocks
  let dataAreaStartBlock ← a.add (← a.add 1 inodeTotalBlocks) dataBitmapBlocks
  return (⟨inodeAreaBlocks, dataBitmapBlocks, dataAreaBlocks⟩,
    ⟨inodeBitmap, dataBitmap, inodeAreaStartBlock, dataAreaStartBlock⟩)

namespace EasyFileSystem

/-- The block and the byte offset of an inode. The computation is in `usize`; only the result is
cast. -/
def getDiskInodePos (efs : EasyFileSystem) (inodeId : UInt32) : UInt32 × Nat :=
  let inodeId := inodeId.toNat
  let blockId := efs.inodeAreaStartBlock.toNat + inodeId / inodeBlockCapacity
  let offset := inodeId % inodeBlockCapacity * diskInodeSize
  (.ofNat blockId, offset)

end EasyFileSystem

/-! ## The layout in natural numbers -/

/-- What `create` computes when nothing overflows, as numbers: the regions one behind the other,
and the sizes the super block has. -/
structure Laid (totalBlocks inodeBitmapBlocks : UInt32) (sizes : Sizes) (efs : EasyFileSystem) :
    Prop where
  inodeArea : sizes.inodeAreaBlocks.toNat = 1024 * inodeBitmapBlocks.toNat
  total : totalBlocks.toNat = 1 + inodeBitmapBlocks.toNat + sizes.inodeAreaBlocks.toNat +
    sizes.dataBitmapBlocks.toNat + sizes.dataAreaBlocks.toNat
  dataBitmapBlocks : sizes.dataBitmapBlocks.toNat =
    (sizes.dataBitmapBlocks.toNat + sizes.dataAreaBlocks.toNat + 4096) / 4097
  room : sizes.dataBitmapBlocks.toNat + sizes.dataAreaBlocks.toNat + 4096 < 2 ^ 32
  inodeBitmap : efs.inodeBitmap = ⟨1, inodeBitmapBlocks.toNat⟩
  inodeAreaStart : efs.inodeAreaStartBlock.toNat = 1 + inodeBitmapBlocks.toNat
  dataBitmap : efs.dataBitmap =
    ⟨1 + inodeBitmapBlocks.toNat + sizes.inodeAreaBlocks.toNat, sizes.dataBitmapBlocks.toNat⟩
  dataAreaStart : efs.dataAreaStartBlock.toNat = 1 + inodeBitmapBlocks.toNat +
    sizes.inodeAreaBlocks.toNat + sizes.dataBitmapBlocks.toNat

variable {totalBlocks inodeBitmapBlocks : UInt32} {sizes : Sizes} {efs : EasyFileSystem}

/-- The inode area has 1024 blocks for each block of the inode bitmap. -/
theorem inodeArea_eq (n : Nat) :
    ((Bitmap.mk 1 n).maximum * diskInodeSize + blockSz - 1) / blockSz = 1024 * n := by
  simp only [Bitmap.maximum, blockBits, diskInodeSize, DiskInode.codec, Bytes.Codec.ofWords,
    blockSz]
  omega

/-- **A layout without overflow.** Where every step of the arithmetic is exact, the regions are
laid one behind the other. -/
theorem laid_of_layout (h : layout .exact totalBlocks inodeBitmapBlocks = .ok (sizes, efs)) :
    Laid totalBlocks inodeBitmapBlocks sizes efs := by
  simp only [layout, bind_eq_ok] at h
  obtain ⟨ia, hia, it, hit, t₁, ht₁, dt, hdt, n, hn, da, hda, ds, hds, is, his, s₁, hs₁, as, has,
    h⟩ := h
  replace hia := (Arith.of_exact_asU32 hia).trans (inodeArea_eq _)
  replace hit := Arith.of_exact_add hit
  replace ht₁ := Arith.of_exact_sub ht₁
  replace hdt := Arith.of_exact_sub hdt
  replace hn := Arith.of_exact_add hn
  replace hda := Arith.of_exact_sub hda
  replace hds := Arith.of_exact_add hds
  replace his := Arith.of_exact_add his
  replace hs₁ := Arith.of_exact_add hs₁
  replace has := Arith.of_exact_add has
  have hdb : (n / 4097).toNat = n.toNat / 4097 := UInt32.toNat_div n 4097
  have hlt := n.toNat_lt
  have h1 : (1 : UInt32).toNat = 1 := rfl
  have h4096 : (4096 : UInt32).toNat = 4096 := rfl
  cases h
  constructor
  · exact hia
  · dsimp only; omega
  · dsimp only; omega
  · dsimp only; omega
  · rfl
  · dsimp only; omega
  · exact congrArg (Bitmap.mk · _) (by dsimp only; omega)
  · dsimp only; omega

/-- Such a layout is the same in every build, as none of its additions and subtractions
overflows. -/
theorem Laid.layout_eq (h : Laid totalBlocks inodeBitmapBlocks sizes efs) (a : Arith) :
    layout a totalBlocks inodeBitmapBlocks = .ok (sizes, efs) := by
  obtain ⟨hia, htot, hdb, hroom, hib, his, hbm, has⟩ := h
  have h1 : (1 : UInt32).toNat = 1 := rfl
  have h4096 : (4096 : UInt32).toNat = 4096 := rfl
  have hlt := totalBlocks.toNat_lt
  -- the intermediate values `create` does not keep
  obtain ⟨it, hit⟩ := exists_toNat_eq
    (show inodeBitmapBlocks.toNat + sizes.inodeAreaBlocks.toNat < 2 ^ 32 by omega)
  obtain ⟨dt, hdt⟩ := exists_toNat_eq
    (show sizes.dataBitmapBlocks.toNat + sizes.dataAreaBlocks.toNat < 2 ^ 32 by omega)
  obtain ⟨t₁, ht₁⟩ := exists_toNat_eq (show totalBlocks.toNat - 1 < 2 ^ 32 by omega)
  obtain ⟨n, hn⟩ := exists_toNat_eq (show dt.toNat + 4096 < 2 ^ 32 by omega)
  obtain ⟨ds, hds⟩ := exists_toNat_eq (show 1 + it.toNat < 2 ^ 32 by omega)
  have hdiv : n / 4097 = sizes.dataBitmapBlocks := by
    apply UInt32.toNat_inj.mp
    refine (UInt32.toNat_div n 4097).trans ?_
    rw [hn, hdt]
    exact hdb.symm
  rw [layout]
  simp only [bind_eq_ok]
  refine ⟨_, a.asU32_eq_ok (hia.trans (inodeArea_eq _).symm), it, a.add_eq_ok hit,
    t₁, a.sub_eq_ok (by omega), dt, a.sub_eq_ok (by omega), n, a.add_eq_ok (by omega), ?_⟩
  rw [hdiv]
  refine ⟨_, a.sub_eq_ok (by omega : dt.toNat = sizes.dataAreaBlocks.toNat + _), ds,
    a.add_eq_ok (by omega), _, a.add_eq_ok (by omega : efs.inodeAreaStartBlock.toNat = _), ds,
    a.add_eq_ok (by omega), _, a.add_eq_ok (by omega : efs.dataAreaStartBlock.toNat = _), ?_⟩
  obtain ⟨ib, bm, is, as⟩ := efs
  subst hib
  rw [show ds.toNat = 1 + inodeBitmapBlocks.toNat + sizes.inodeAreaBlocks.toNat by omega, ← hbm]
  rfl

/-- The number of inodes the inode bitmap can hand out: 4096 for each of its blocks. -/
theorem Laid.inodeBitmap_maximum (h : Laid totalBlocks inodeBitmapBlocks sizes efs) :
    efs.inodeBitmap.maximum = 4096 * inodeBitmapBlocks.toNat := by
  rw [h.inodeBitmap]
  exact Nat.mul_comm _ _

/-! ## The regions -/

/-- The blocks the inodes are in, as many as `create` counts for the inode area. -/
def inodeRegion (sizes : Sizes) (efs : EasyFileSystem) : Region :=
  ⟨efs.inodeAreaStartBlock.toNat, sizes.inodeAreaBlocks.toNat⟩

/-- The super block, the inode bitmap, the inode area, the data bitmap and the data area. -/
def regions (sizes : Sizes) (efs : EasyFileSystem) : List Region :=
  [⟨0, 1⟩,
    ⟨efs.inodeBitmap.startBlockId, efs.inodeBitmap.blocks⟩,
    inodeRegion sizes efs,
    ⟨efs.dataBitmap.startBlockId, efs.dataBitmap.blocks⟩,
    ⟨efs.dataAreaStartBlock.toNat, sizes.dataAreaBlocks.toNat⟩]

/-- The regions lie side by side and are the whole device. -/
theorem Laid.tiles (h : Laid totalBlocks inodeBitmapBlocks sizes efs) :
    Region.Tiles 0 totalBlocks.toNat (regions sizes efs) := by
  have := h.inodeAreaStart
  have := h.dataAreaStart
  have := h.total
  rw [regions, inodeRegion, h.inodeBitmap, h.dataBitmap]
  refine ⟨rfl, rfl, ?_, ?_, ?_, ?_⟩ <;> simp only [Region.Tiles] <;> omega

/-- The blocks of the inode area are the 1024 for each block of the inode bitmap, from its start
on. -/
theorem Laid.mem_inodeRegion (h : Laid totalBlocks inodeBitmapBlocks sizes efs) {b : Nat} :
    b ∈ (inodeRegion sizes efs).places ↔ efs.inodeAreaStartBlock.toNat ≤ b ∧
      b < efs.inodeAreaStartBlock.toNat + 1024 * inodeBitmapBlocks.toNat := by
  rw [← h.inodeArea]
  rfl

/-- The data bitmap has a bit for every data block. -/
theorem Laid.dataArea_le (h : Laid totalBlocks inodeBitmapBlocks sizes efs) :
    sizes.dataAreaBlocks.toNat ≤ efs.dataBitmap.maximum := by
  have := h.dataBitmapBlocks
  rw [Bitmap.maximum, h.dataBitmap, blockBits, blockSz]
  dsimp only
  omega

/-- One bitmap block fewer would have too few bits: the data bitmap is as small as it can be. -/
theorem Laid.dataBitmap_minimal (h : Laid totalBlocks inodeBitmapBlocks sizes efs)
    (hpos : 1 ≤ efs.dataBitmap.blocks) :
    (efs.dataBitmap.blocks - 1) * blockBits < sizes.dataAreaBlocks.toNat + 1 := by
  have := h.dataBitmapBlocks
  rw [h.dataBitmap] at hpos ⊢
  dsimp only at hpos ⊢
  rw [blockBits, blockSz]
  omega

/-! ## The inode slots -/

/-- Byte `o` of block `b` belongs to the slot of an inode. -/
def InSlot (efs : EasyFileSystem) (id : UInt32) (b o : Nat) : Prop :=
  (efs.getDiskInodePos id).1.toNat = b ∧ (efs.getDiskInodePos id).2 ≤ o ∧
    o < (efs.getDiskInodePos id).2 + diskInodeSize

/-- The slots of the inode ids together fill the inode area. -/
def SlotsFill (sizes : Sizes) (efs : EasyFileSystem) : Prop :=
  ∀ b ∈ (inodeRegion sizes efs).places, ∀ o < blockSz,
    ∃ id : UInt32, id.toNat < efs.inodeBitmap.maximum ∧ InSlot efs id b o

/-- Where the slot of an inode id below `maximum()` is. -/
theorem Laid.getDiskInodePos_eq (h : Laid totalBlocks inodeBitmapBlocks sizes efs) {id : UInt32}
    (hid : id.toNat < efs.inodeBitmap.maximum) :
    (efs.getDiskInodePos id).1.toNat = efs.inodeAreaStartBlock.toNat + id.toNat / 4 ∧
      (efs.getDiskInodePos id).2 = id.toNat % 4 * 128 := by
  refine ⟨?_, rfl⟩
  have hlt := totalBlocks.toNat_lt
  rw [h.inodeBitmap_maximum] at hid
  have := h.inodeArea
  have := h.total
  have := h.inodeAreaStart
  refine (UInt32.toNat_ofNat').trans (Nat.mod_eq_of_lt ?_)
  show efs.inodeAreaStartBlock.toNat + id.toNat / 4 < 2 ^ 32
  omega

/-- Every slot is in the inode area, inside one block. -/
theorem Laid.slot_mem (h : Laid totalBlocks inodeBitmapBlocks sizes efs) {id : UInt32}
    (hid : id.toNat < efs.inodeBitmap.maximum) :
    (efs.getDiskInodePos id).1.toNat ∈ (inodeRegion sizes efs).places ∧
      (efs.getDiskInodePos id).2 + diskInodeSize ≤ blockSz := by
  obtain ⟨hb, ho⟩ := h.getDiskInodePos_eq hid
  have hsize : diskInodeSize = 128 := rfl
  rw [h.mem_inodeRegion, hb, ho, hsize, blockSz]
  rw [h.inodeBitmap_maximum] at hid
  omega

/-- No two slots share a byte: an inode is given by any byte of its slot. -/
theorem Laid.slot_inj (h : Laid totalBlocks inodeBitmapBlocks sizes efs) {id id' : UInt32}
    {b o : Nat} (hid : id.toNat < efs.inodeBitmap.maximum)
    (hid' : id'.toNat < efs.inodeBitmap.maximum) (hs : InSlot efs id b o)
    (hs' : InSlot efs id' b o) : id = id' := by
  have hsize : diskInodeSize = 128 := rfl
  obtain ⟨hb, ho⟩ := h.getDiskInodePos_eq hid
  obtain ⟨hb', ho'⟩ := h.getDiskInodePos_eq hid'
  rw [InSlot, hb, ho, hsize] at hs
  rw [InSlot, hb', ho', hsize] at hs'
  apply UInt32.toNat_inj.mp
  omega

/-- **Which blocks of the inode area have slots.** An inode id is a `u32`, so the slots end after
`2 ^ 30` blocks. -/
theorem Laid.exists_slot_iff (h : Laid totalBlocks inodeBitmapBlocks sizes efs) {b o : Nat}
    (hb : b ∈ (inodeRegion sizes efs).places) (ho : o < blockSz) :
    (∃ id : UInt32, id.toNat < efs.inodeBitmap.maximum ∧ InSlot efs id b o) ↔
      b < efs.inodeAreaStartBlock.toNat + 2 ^ 30 := by
  have hsize : diskInodeSize = 128 := rfl
  rw [h.mem_inodeRegion] at hb
  rw [blockSz] at ho
  constructor
  · rintro ⟨id, hid, hs⟩
    obtain ⟨hb', ho'⟩ := h.getDiskInodePos_eq hid
    rw [InSlot, hb', ho', hsize] at hs
    have := id.toNat_lt
    omega
  · intro hlt
    obtain ⟨id, hid⟩ := exists_toNat_eq
      (show 4 * (b - efs.inodeAreaStartBlock.toNat) + o / 128 < 2 ^ 32 by omega)
    have hmax : id.toNat < efs.inodeBitmap.maximum := by
      rw [h.inodeBitmap_maximum]
      omega
    obtain ⟨hb', ho'⟩ := h.getDiskInodePos_eq hmax
    refine ⟨id, hmax, ?_⟩
    rw [InSlot, hb', ho', hsize]
    omega

/-- The slots fill the inode area as long as every bit of the inode bitmap is a `u32`. -/
theorem Laid.slotsFill_iff (h : Laid totalBlocks inodeBitmapBlocks sizes efs) :
    SlotsFill sizes efs ↔ inodeBitmapBlocks.toNat ≤ 2 ^ 20 := by
  constructor
  · intro hfill
    rcases Nat.lt_or_ge (2 ^ 20) inodeBitmapBlocks.toNat with hlt | hge
    · have hb : efs.inodeAreaStartBlock.toNat + 2 ^ 30 ∈ (inodeRegion sizes efs).places :=
        h.mem_inodeRegion.mpr (by omega)
      have := (h.exists_slot_iff hb (by decide)).mp (hfill _ hb 0 (by decide))
      omega
    · exact hge
  · intro hle b hb o ho
    refine (h.exists_slot_iff hb ho).mpr ?_
    have := h.mem_inodeRegion.mp hb
    omega

/-- **The layout is a partition.** If no operation of `create` overflows and no cast truncates, the
super block, the two bitmaps, the inode area and the data area lie side by side, share no block and
together are the device; the data bitmap covers the data area and no smaller one would; the slots of
the inode ids lie in the inode area, each inside one block, and do not overlap. They fill those
blocks of the inode area that are among its first `2 ^ 30`, which is the whole area if and only if
the inode bitmap has at most `2 ^ 20` blocks. -/
theorem layout_partition (h : layout .exact totalBlocks inodeBitmapBlocks = .ok (sizes, efs)) :
    (Region.Tiles 0 totalBlocks.toNat (regions sizes efs) ∧
      (regions sizes efs).Pairwise (fun r s => Disjoint r.places s.places) ∧
      ∀ b, (∃ r ∈ regions sizes efs, b ∈ r.places) ↔ b < totalBlocks.toNat) ∧
    (sizes.dataAreaBlocks.toNat ≤ efs.dataBitmap.maximum ∧
      (1 ≤ efs.dataBitmap.blocks →
        (efs.dataBitmap.blocks - 1) * blockBits < sizes.dataAreaBlocks.toNat + 1)) ∧
    (∀ id : UInt32, id.toNat < efs.inodeBitmap.maximum →
      (efs.getDiskInodePos id).1.toNat ∈ (inodeRegion sizes efs).places ∧
        (efs.getDiskInodePos id).2 + 128 ≤ 512) ∧
    (∀ id id' : UInt32, id.toNat < efs.inodeBitmap.maximum → id'.toNat < efs.inodeBitmap.maximum →
      id ≠ id' → ∀ b o, ¬ (InSlot efs id b o ∧ InSlot efs id' b o)) ∧
    (∀ b ∈ (inodeRegion sizes efs).places, ∀ o < blockSz,
      (∃ id : UInt32, id.toNat < efs.inodeBitmap.maximum ∧ InSlot efs id b o) ↔
        b < efs.inodeAreaStartBlock.toNat + 2 ^ 30) ∧
    (SlotsFill sizes efs ↔ inodeBitmapBlocks.toNat ≤ 2 ^ 20) := by
  have hl := laid_of_layout h
  refine ⟨⟨hl.tiles, hl.tiles.pairwise, fun b => ?_⟩, ⟨hl.dataArea_le, hl.dataBitmap_minimal⟩,
    fun id hid => hl.slot_mem hid, fun id id' hid hid' hne b o ⟨hs, hs'⟩ => ?_,
    fun b hb o ho => hl.exists_slot_iff hb ho, hl.slotsFill_iff⟩
  · rw [hl.tiles.mem_iff]
    exact and_iff_right (Nat.zero_le b)
  · exact hne (hl.slot_inj hid hid' hs hs')

/-- A device of 4096 blocks with one inode bitmap block. -/
theorem layout_partition_small :
    Region.Tiles 0 4096 (regions ⟨1024, 1, 3069⟩ ⟨⟨1, 1⟩, ⟨1026, 1⟩, 2, 1027⟩) :=
  (@layout_partition 4096 1 ⟨1024, 1, 3069⟩ ⟨⟨1, 1⟩, ⟨1026, 1⟩, 2, 1027⟩ (by decide)).1.1

/-- An inode bitmap of `2 ^ 20 + 1` blocks on the largest device: no inode id reaches the last
blocks of the inode area. -/
theorem layout_not_slotsFill :
    let sizes : Sizes := ⟨1073742848, 785984, 3219389885⟩
    let efs : EasyFileSystem := ⟨⟨1, 1048577⟩, ⟨1074791426, 785984⟩, 1048578, 1075577410⟩
    layout .exact 4294967295 1048577 = .ok (sizes, efs) ∧ ¬ SlotsFill sizes efs := by
  intro sizes efs
  have h : layout .exact 4294967295 1048577 = .ok (sizes, efs) := by decide
  refine ⟨h, fun hfill => ?_⟩
  exact absurd ((laid_of_layout h).slotsFill_iff.mp hfill) (by decide)

/-! ## Formatting in a release build -/

/-- The layout fits the device: the data area starts on it and is what is left of it, and its blocks
have bits. -/
def Possible (totalBlocks : UInt32) (sizes : Sizes) (efs : EasyFileSystem) : Prop :=
  efs.dataAreaStartBlock.toNat ≤ totalBlocks.toNat ∧
    sizes.dataAreaBlocks.toNat = totalBlocks.toNat - efs.dataAreaStartBlock.toNat ∧
    sizes.dataAreaBlocks.toNat ≤ efs.dataBitmap.maximum

/-- Whether a layout fits can be evaluated, part by part. -/
instance : Decidable (Possible totalBlocks sizes efs) :=
  inferInstanceAs (Decidable (_ ∧ _ ∧ _))

/-- The release build lays out every device: no operation fails, and the results are those of
natural numbers modulo `2 ^ 32`. -/
theorem layout_release (totalBlocks inodeBitmapBlocks : UInt32) :
    ∃ sizes efs, layout .release totalBlocks inodeBitmapBlocks = .ok (sizes, efs) ∧
      let inodeTotal := 1025 * inodeBitmapBlocks.toNat % 2 ^ 32
      let dataTotal := (totalBlocks.toNat + 2 ^ 32 - 1 - inodeTotal) % 2 ^ 32
      efs.dataBitmap.blocks = (dataTotal + 4096) % 2 ^ 32 / 4097 ∧
      sizes.dataAreaBlocks.toNat = (dataTotal + 2 ^ 32 - efs.dataBitmap.blocks) % 2 ^ 32 ∧
      efs.dataAreaStartBlock.toNat = (1 + inodeTotal + efs.dataBitmap.blocks) % 2 ^ 32 := by
  have hT := totalBlocks.toNat_lt
  have h1 : (1 : UInt32).toNat = 1 := rfl
  have hn : (inodeBitmapBlocks.toNat + 1024 * inodeBitmapBlocks.toNat % 2 ^ 32) % 2 ^ 32 =
      1025 * inodeBitmapBlocks.toNat % 2 ^ 32 := by omega
  have hd (n : Nat) (h : n < 2 ^ 32) :
      (2 ^ 32 - n + (2 ^ 32 - 1 + totalBlocks.toNat) % 2 ^ 32) % 2 ^ 32 =
        (totalBlocks.toNat + 2 ^ 32 - 1 - n) % 2 ^ 32 := by omega
  refine ⟨_, _, rfl, ?_⟩
  simp only [inodeArea_eq, UInt32.toNat_add, UInt32.toNat_sub, UInt32.toNat_div,
    UInt32.toNat_ofNat', h1, hn, hd _ (Nat.mod_lt _ (by decide))]
  refine ⟨rfl, ?_, ?_⟩
  · have hsub (d m : Nat) : 2 ^ 32 - m % 2 ^ 32 / 4097 + d = d + 2 ^ 32 - m % 2 ^ 32 / 4097 := by
      omega
    exact congrArg (· % 2 ^ 32) (hsub _ _)
  · rw [Nat.mod_add_mod]

/-- **When a layout is possible.** In a release build `create` refuses no pair of parameters. The
layout it computes fits the device if and only if the inode bitmap and the inode area do and the
rest can be rounded up, or if the start of the data area wraps around as well. -/
theorem layout_possible_iff (totalBlocks inodeBitmapBlocks : UInt32) :
    ((∃ e, layout .release totalBlocks inodeBitmapBlocks = .error e) ∨
      ∃ sizes efs, layout .release totalBlocks inodeBitmapBlocks = .ok (sizes, efs) ∧
        Possible totalBlocks sizes efs) ↔
    let inodeTotal := 1025 * inodeBitmapBlocks.toNat % 2 ^ 32
    let above := 2 ^ 32 - 1 - inodeTotal
    (inodeTotal < totalBlocks.toNat ∧ totalBlocks.toNat - 1 - inodeTotal + 4096 < 2 ^ 32) ∨
      (totalBlocks.toNat ≤ inodeTotal ∧ totalBlocks.toNat + above + 4096 < 2 ^ 32 ∧
        4096 * above ≤ totalBlocks.toNat + 4096) := by
  obtain ⟨sizes, efs, hok, hbits, harea, hstart⟩ := layout_release totalBlocks inodeBitmapBlocks
  have hT := totalBlocks.toNat_lt
  have hiff : ((∃ e, layout .release totalBlocks inodeBitmapBlocks = .error e) ∨
      ∃ sizes efs, layout .release totalBlocks inodeBitmapBlocks = .ok (sizes, efs) ∧
        Possible totalBlocks sizes efs) ↔ Possible totalBlocks sizes efs := by
    rw [hok]
    constructor
    · rintro (⟨e, he⟩ | ⟨_, _, heq, hp⟩)
      · cases he
      · cases heq
        exact hp
    · exact fun hp => .inr ⟨sizes, efs, rfl, hp⟩
  rw [hiff, Possible, harea, hstart, Bitmap.maximum, blockBits, blockSz, hbits]
  have hlt : 1025 * inodeBitmapBlocks.toNat % 2 ^ 32 < 2 ^ 32 := Nat.mod_lt _ (by decide)
  generalize 1025 * inodeBitmapBlocks.toNat % 2 ^ 32 = n at *
  generalize totalBlocks.toNat = t at *
  dsimp only
  -- the blocks behind the inode area, and the rounded part of them
  have hd : (n < t ∧ (t + 2 ^ 32 - 1 - n) % 2 ^ 32 = t - 1 - n) ∨
      (t ≤ n ∧ (t + 2 ^ 32 - 1 - n) % 2 ^ 32 = t + (2 ^ 32 - 1 - n)) := by omega
  generalize (t + 2 ^ 32 - 1 - n) % 2 ^ 32 = d at *
  have hb : (d + 4096 < 2 ^ 32 ∧ (d + 4096) % 2 ^ 32 / 4097 = (d + 4096) / 4097) ∨
      (2 ^ 32 ≤ d + 4096 ∧ (d + 4096) % 2 ^ 32 / 4097 = 0) := by omega
  generalize (d + 4096) % 2 ^ 32 / 4097 = b at *
  rcases hd with ⟨hnt, hd⟩ | ⟨htn, hd⟩ <;> rcases hb with ⟨hroom, hb⟩ | ⟨hroom, hb⟩
  · omega
  · omega
  · omega
  · omega

/-- A device of 100 blocks has no room for the inode area of one bitmap block. The release build
lays out a data area of almost `2 ^ 32` blocks behind its end, and no bitmap block for it. -/
theorem layout_impossible :
    layout .release 100 1 =
        .ok (⟨1024, 0, 4294966370⟩, ⟨⟨1, 1⟩, ⟨1026, 0⟩, 2, 1026⟩) ∧
      ¬ ((∃ e, layout .release 100 1 = .error e) ∨
        ∃ sizes efs, layout .release 100 1 = .ok (sizes, efs) ∧ Possible 100 sizes efs) := by
  have hok : layout .release 100 1 =
      .ok (⟨1024, 0, 4294966370⟩, ⟨⟨1, 1⟩, ⟨1026, 0⟩, 2, 1026⟩) := by decide
  refine ⟨hok, ?_⟩
  rw [hok]
  rintro (⟨e, he⟩ | ⟨_, _, heq, hp⟩)
  · cases he
  · cases heq
    revert hp
    decide

end TinyOS.EasyFs
