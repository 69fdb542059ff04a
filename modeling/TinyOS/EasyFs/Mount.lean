import TinyOS.EasyFs.Efs

/-!
# Formatting and mounting

`EasyFileSystem::create`, `open` and `root_inode` (`easy-fs/src/efs.rs`), with the parts of `Inode`
they need (`easy-fs/src/vfs.rs`). `create` computes the layout and writes six numbers into block 0;
`open` computes it again from these. `openEfs_create` says that both arrive at the same file system.
The data bitmap has whole blocks, the data area what is left of the device; `allocData_lt_iff` says
when that is enough for every bit.
-/

namespace TinyOS.EasyFs

open Bytes

/-! ## Inodes -/

/-- An `Inode`, without the file system and the device it belongs to. -/
structure Inode where
  blockId : UInt32
  blockOffset : Nat
  deriving DecidableEq

namespace Inode

/-- `read_disk_inode`: the closure on the inode in the slot, through the cache of its block. -/
def readDiskInode {V : Type} (inode : Inode) (dev : Store) (f : DiskInode → V) : Except Panic V :=
  readBlock DiskInode.codec dev inode.blockId.toNat inode.blockOffset f

/-- `Inode::size`, which locks the block of the inode but not the file system. -/
def size (inode : Inode) (dev : Store) : Except Panic UInt32 := inode.readDiskInode dev (·.size)

/-- `Inode::is_dir`, which locks the block of the inode but not the file system. -/
def isDir (inode : Inode) (dev : Store) : Except Panic Bool := inode.readDiskInode dev (·.isDir)

end Inode

/-! ## `create` and `open` -/

/-- A block viewed as `[u8; BLOCK_SZ]`, the type `dealloc_data` and `create` write zeros as. -/
def dataBlock : Codec Block where
  size := blockSz
  decode f := some fun i => f i
  encode b k := if h : k < blockSz then b ⟨k, h⟩ else 0
  decode_encode b f h := by
    refine congrArg some (funext fun i => ?_)
    rw [h i i.isLt, dif_pos i.isLt]

/-- The loop of `create` that zeroes every block of the device, one `modify` each. -/
def zeroBlocks (totalBlocks : Nat) (dev : Store) : Except Panic Store :=
  (List.range totalBlocks).foldlM (fun dev i => modifyBlock dataBlock dev i 0 fun _ _ => 0) dev

namespace EasyFileSystem

variable (alloc : Bitmap → Store → Option Nat × Store)

/-- `EasyFileSystem::alloc_inode`: a bit of the inode bitmap, cast to `u32`; it panics if there
is none. -/
def allocInode (a : Arith) (efs : EasyFileSystem) (dev : Store) : Except Panic (UInt32 × Store) :=
  match alloc efs.inodeBitmap dev with
  | (some bit, dev) => do return (← a.asU32 bit, dev)
  | (none, _) => .error .unwrapNone

/-- `EasyFileSystem::alloc_data`: a bit of the data bitmap, as a block of the data area; it
panics if there is none. -/
def allocData (a : Arith) (efs : EasyFileSystem) (dev : Store) : Except Panic (UInt32 × Store) :=
  match alloc efs.dataBitmap dev with
  | (some bit, dev) => do return (← a.add (← a.asU32 bit) efs.dataAreaStartBlock, dev)
  | (none, _) => .error .unwrapNone

/-- `EasyFileSystem::create` on the device `dev`: the file system and the device it leaves. With a
coherent cache `block_cache_sync_all` changes nothing that can be seen through it. -/
def create (a : Arith) (dev : Store) (totalBlocks inodeBitmapBlocks : UInt32) :
    Except Panic (EasyFileSystem × Store) := do
  let (sizes, efs) ← layout a totalBlocks inodeBitmapBlocks
  let dev ← zeroBlocks totalBlocks.toNat dev
  let dev ← modifyBlock SuperBlock.codec dev 0 0 fun sb =>
    sb.initialise totalBlocks inodeBitmapBlocks sizes.inodeAreaBlocks sizes.dataBitmapBlocks
      sizes.dataAreaBlocks
  let (id, dev) ← efs.allocInode alloc a dev
  if id ≠ 0 then .error (.assertion "efs.alloc_inode() == 0")
  else
    let (rootBlock, rootOffset) := efs.getDiskInodePos 0
    let dev ← modifyBlock DiskInode.codec dev rootBlock.toNat rootOffset fun di =>
      di.initialise .directory
    return (efs, dev)

/-- `EasyFileSystem::open`: the magic number is asserted, and the regions are computed from the
super block. -/
def openEfs (a : Arith) (dev : Store) : Except Panic EasyFileSystem := do
  ← readBlock SuperBlock.codec dev 0 0 fun sb =>
    if !sb.isValid then .error (.assertion "easy-fs: bad magic")
    else do
      let inodeTotalBlocks ← a.add sb.inodeBitmapBlocks sb.inodeAreaBlocks
      let dataBitmapStart ← a.add 1 inodeTotalBlocks
      let inodeAreaStartBlock ← a.add 1 sb.inodeBitmapBlocks
      let dataAreaStartBlock ← a.add (← a.add 1 inodeTotalBlocks) sb.dataBitmapBlocks
      return {
        inodeBitmap := ⟨1, sb.inodeBitmapBlocks.toNat⟩
        dataBitmap := ⟨dataBitmapStart.toNat, sb.dataBitmapBlocks.toNat⟩
        inodeAreaStartBlock
        dataAreaStartBlock }

/-- `EasyFileSystem::root_inode`: the inode with the number 0, which `create` has allocated. -/
def rootInode (efs : EasyFileSystem) : Inode :=
  ⟨(efs.getDiskInodePos 0).1, (efs.getDiskInodePos 0).2⟩

end EasyFileSystem

/-! ## The steps of `create` -/

/-- The loop leaves zeros in the blocks it was to zero and nothing else changed. -/
theorem zeroBlocks_eq (n : Nat) (dev : Store) :
    zeroBlocks n dev = .ok fun b => if b < n then fun _ => 0 else dev b := by
  induction n with
  | zero => rfl
  | succ n ih =>
    rw [zeroBlocks] at ih
    rw [zeroBlocks, List.range_succ, List.foldlM_append, ih]
    refine bind_eq_ok.mpr ⟨_, rfl, ?_⟩
    rw [List.foldlM_cons]
    refine bind_eq_ok.mpr ⟨_, modifyBlock_eq dataBlock _ (Nat.le_refl _) rfl, ?_⟩
    refine congrArg Except.ok (funext fun b => ?_)
    rcases lt_trichotomy b n with hb | rfl | hb
    · rw [Function.update_of_ne hb.ne, if_pos hb, if_pos (Nat.lt_succ_of_lt hb)]
    · rw [Function.update_self, if_pos (Nat.lt_succ_self b)]
      funext i
      have := i.isLt
      simp [Codec.write, dataBlock]
    · rw [Function.update_of_ne hb.ne', if_neg (by omega), if_neg (by omega)]

variable {alloc : Bitmap → Store → Option Nat × Store}
  {totalBlocks inodeBitmapBlocks : UInt32} {sizes : Sizes} {efs : EasyFileSystem}

/-- The super block `create` writes, with the sizes it has computed. -/
def superBlock (totalBlocks inodeBitmapBlocks : UInt32) (sizes : Sizes) : SuperBlock :=
  ⟨efsMagic, totalBlocks, inodeBitmapBlocks, sizes.inodeAreaBlocks, sizes.dataBitmapBlocks,
    sizes.dataAreaBlocks⟩

/-- An empty directory, the root inode on a device that was just formatted. -/
def emptyDir : DiskInode := ⟨0, fun _ => 0, 0, 0, .directory⟩

/-- A device with a super block for the file system and an empty root directory. -/
structure Formatted (totalBlocks inodeBitmapBlocks : UInt32) (sizes : Sizes)
    (efs : EasyFileSystem) (dev : Store) : Prop where
  super : ∃ b, dev 0 = SuperBlock.codec.write b 0 (superBlock totalBlocks inodeBitmapBlocks sizes)
  root : ∃ b, dev efs.rootInode.blockId.toNat =
    DiskInode.codec.write b efs.rootInode.blockOffset emptyDir

/-- The root inode is the first slot of the inode area. -/
theorem Laid.rootInode_blockId (hl : Laid totalBlocks inodeBitmapBlocks sizes efs)
    (hI : 1 ≤ inodeBitmapBlocks.toNat) :
    efs.rootInode.blockId.toNat = 1 + inodeBitmapBlocks.toNat := by
  have hid : (0 : UInt32).toNat < efs.inodeBitmap.maximum := by
    rw [hl.inodeBitmap_maximum]
    show 0 < 4096 * inodeBitmapBlocks.toNat
    omega
  exact (hl.getDiskInodePos_eq hid).1.trans hl.inodeAreaStart

/-- The root inode lies inside its block, so that reading it does not panic. -/
theorem EasyFileSystem.rootInode_bound (efs : EasyFileSystem) :
    efs.rootInode.blockOffset + DiskInode.codec.size ≤ blockSz :=
  show 0 + 128 ≤ 512 by decide

/-- The first bit of the inode bitmap is in block 1. -/
theorem Laid.blockOf_zero (hl : Laid totalBlocks inodeBitmapBlocks sizes efs) :
    efs.inodeBitmap.blockOf 0 = 1 := by
  rw [hl.inodeBitmap]
  rfl

/-- After the loop and the super block, all blocks but block 0 are zero. -/
theorem zeroBlocks_superBlock (totalBlocks inodeBitmapBlocks : UInt32) (sizes : Sizes)
    (dev : Store) :
    ∃ dev₁ dev₂ : Store, zeroBlocks totalBlocks.toNat dev = .ok dev₁ ∧
      modifyBlock SuperBlock.codec dev₁ 0 0 (fun sb => sb.initialise totalBlocks inodeBitmapBlocks
        sizes.inodeAreaBlocks sizes.dataBitmapBlocks sizes.dataAreaBlocks) = .ok dev₂ ∧
      (∃ b, dev₂ 0 = SuperBlock.codec.write b 0 (superBlock totalBlocks inodeBitmapBlocks sizes)) ∧
      ∀ b, 0 < b → b < totalBlocks.toNat → dev₂ b = fun _ => 0 := by
  refine ⟨_, _, zeroBlocks_eq _ dev, modifyBlock_eq _ _ (by decide) rfl,
    ⟨_, Function.update_self ..⟩, fun b hb hlt => ?_⟩
  rw [Function.update_of_ne hb.ne', if_pos hlt]

/-- The first bit of a zeroed inode bitmap is allocated. -/
theorem Laid.allocInode_eq (hl : Laid totalBlocks inodeBitmapBlocks sizes efs)
    (hspec : AllocSpec alloc) (hI : 1 ≤ inodeBitmapBlocks.toNat) (a : Arith) {dev : Store}
    (hdev : dev 1 = fun _ => 0) :
    efs.allocInode alloc a dev = .ok (0, efs.inodeBitmap.setBit dev 0) := by
  have halloc : alloc efs.inodeBitmap dev = (some 0, efs.inodeBitmap.setBit dev 0) := by
    refine hspec.found _ _ 0 ?_ (Bitmap.testBit_of_zero ?_) fun j hj =>
      absurd hj (Nat.not_lt_zero j)
    · rw [hl.inodeBitmap_maximum]
      omega
    · rw [hl.blockOf_zero]
      exact hdev
  rw [EasyFileSystem.allocInode, halloc]
  exact bind_eq_ok.mpr ⟨0, a.asU32_eq_ok rfl, rfl⟩

/-- **`create` succeeds and formats the device**, in every build, where the layout is exact and
there is an inode bitmap. -/
theorem create_eq (hspec : AllocSpec alloc) (hl : Laid totalBlocks inodeBitmapBlocks sizes efs)
    (hI : 1 ≤ inodeBitmapBlocks.toNat) (a : Arith) (dev : Store) :
    ∃ dev', EasyFileSystem.create alloc a dev totalBlocks inodeBitmapBlocks = .ok (efs, dev') ∧
      Formatted totalBlocks inodeBitmapBlocks sizes efs dev' := by
  have hroot := hl.rootInode_blockId hI
  have hbit := hl.blockOf_zero
  have htotal := hl.total
  have harea := hl.inodeArea
  obtain ⟨dev₁, dev₂, hz, hs, hdev₂, hzero⟩ :=
    zeroBlocks_superBlock totalBlocks inodeBitmapBlocks sizes dev
  have hinode := hl.allocInode_eq hspec hI a (hzero 1 (by decide) (by omega))
  have hread : DiskInode.codec.read (efs.inodeBitmap.setBit dev₂ 0 efs.rootInode.blockId.toNat)
      efs.rootInode.blockOffset = some ⟨0, fun _ => 0, 0, 0, .file⟩ := by
    rw [Bitmap.setBit_of_ne (by omega), hzero _ (by omega) (by omega)]
    exact DiskInode.codec_read_zero _
  have hdir := modifyBlock_eq DiskInode.codec (fun di => di.initialise .directory)
    efs.rootInode_bound hread
  refine ⟨_, bind_eq_ok.mpr ⟨_, hl.layout_eq a, bind_eq_ok.mpr ⟨dev₁, hz, bind_eq_ok.mpr ⟨dev₂, hs,
    bind_eq_ok.mpr ⟨_, hinode, bind_eq_ok.mpr ⟨_, hdir, rfl⟩⟩⟩⟩⟩, ?_, ⟨_, Function.update_self ..⟩⟩
  rw [Function.update_of_ne (by omega), Bitmap.setBit_of_ne (by omega)]
  exact hdev₂

/-- `open` reads the file system back from the super block. -/
theorem Formatted.openEfs_eq {dev : Store}
    (h : Formatted totalBlocks inodeBitmapBlocks sizes efs dev)
    (hl : Laid totalBlocks inodeBitmapBlocks sizes efs) (a : Arith) :
    EasyFileSystem.openEfs a dev = .ok efs := by
  obtain ⟨b, hb⟩ := h.super
  have htotal := hl.total
  have hlt := totalBlocks.toNat_lt
  have h1 : (1 : UInt32).toNat = 1 := rfl
  have hinode := hl.inodeAreaStart
  have hdata := hl.dataAreaStart
  obtain ⟨it, hit⟩ := exists_toNat_eq
    (show inodeBitmapBlocks.toNat + sizes.inodeAreaBlocks.toNat < 2 ^ 32 by omega)
  obtain ⟨ds, hds⟩ := exists_toNat_eq (show 1 + it.toNat < 2 ^ 32 by omega)
  refine bind_eq_ok.mpr ⟨_, readBlock_write SuperBlock.codec _ (by decide) hb, ?_⟩
  refine bind_eq_ok.mpr ⟨it, a.add_eq_ok hit, bind_eq_ok.mpr ⟨ds, a.add_eq_ok (by omega),
    bind_eq_ok.mpr ⟨efs.inodeAreaStartBlock, a.add_eq_ok (by rw [h1]; exact hinode),
      bind_eq_ok.mpr ⟨ds, a.add_eq_ok (by omega), bind_eq_ok.mpr ⟨efs.dataAreaStartBlock,
        a.add_eq_ok ?_, ?_⟩⟩⟩⟩⟩
  · show efs.dataAreaStartBlock.toNat = ds.toNat + sizes.dataBitmapBlocks.toNat
    omega
  · obtain ⟨ib, bm, is, as⟩ := efs
    cases hl.inodeBitmap
    cases hl.dataBitmap
    rw [show ds.toNat = 1 + inodeBitmapBlocks.toNat + sizes.inodeAreaBlocks.toNat by omega]
    rfl

/-- **Mounting agrees with formatting.** If the arithmetic of `create` does not overflow and there
is an inode bitmap, `create` succeeds in every build, `open` in any build on the device it leaves
passes the magic check and yields the same file system, and the root inode, in the first slot of the
inode area, is a directory of size 0. -/
theorem openEfs_create (hspec : AllocSpec alloc) (hI : 1 ≤ inodeBitmapBlocks.toNat)
    (h : layout .exact totalBlocks inodeBitmapBlocks = .ok (sizes, efs)) (a a' : Arith)
    (dev : Store) :
    ∃ dev', EasyFileSystem.create alloc a dev totalBlocks inodeBitmapBlocks = .ok (efs, dev') ∧
      EasyFileSystem.openEfs a' dev' = .ok efs ∧
      efs.rootInode.blockId.toNat = 1 + inodeBitmapBlocks.toNat ∧
      efs.rootInode.blockOffset = 0 ∧
      efs.rootInode.isDir dev' = .ok true ∧ efs.rootInode.size dev' = .ok 0 := by
  have hl := laid_of_layout h
  obtain ⟨dev', hcreate, hformat⟩ := create_eq hspec hl hI a dev
  obtain ⟨b, hb⟩ := hformat.root
  exact ⟨dev', hcreate, hformat.openEfs_eq hl a', hl.rootInode_blockId hI, rfl,
    readBlock_write DiskInode.codec _ efs.rootInode_bound hb,
    readBlock_write DiskInode.codec _ efs.rootInode_bound hb⟩

/-- A device of 4096 blocks, formatted in a debug build and mounted in a release build. -/
theorem openEfs_create_small :
    let efs : EasyFileSystem := ⟨⟨1, 1⟩, ⟨1026, 1⟩, 2, 1027⟩
    ∃ dev', EasyFileSystem.create Bitmap.allocFirst .debug (fun _ _ => 7) 4096 1 = .ok (efs, dev') ∧
      EasyFileSystem.openEfs .release dev' = .ok efs := by
  obtain ⟨dev', hcreate, hopen, -⟩ := @openEfs_create Bitmap.allocFirst 4096 1 ⟨1024, 1, 3069⟩
    ⟨⟨1, 1⟩, ⟨1026, 1⟩, 2, 1027⟩ Bitmap.allocFirst_spec (by decide) (by decide) .debug .release
    fun _ _ => 7
  exact ⟨dev', hcreate, hopen⟩

/-! ## Data blocks -/

/-- The blocks that are left for the data bitmap and the data area. -/
theorem Laid.dataTotal_eq (hl : Laid totalBlocks inodeBitmapBlocks sizes efs) :
    totalBlocks.toNat - 1 - 1025 * inodeBitmapBlocks.toNat =
      sizes.dataBitmapBlocks.toNat + sizes.dataAreaBlocks.toNat := by
  have := hl.total
  have := hl.inodeArea
  omega

/-- The data area begins right after the data bitmap and ends with the device. -/
theorem Laid.dataAreaStart_add (hl : Laid totalBlocks inodeBitmapBlocks sizes efs) :
    efs.dataAreaStartBlock.toNat + sizes.dataAreaBlocks.toNat = totalBlocks.toNat := by
  have := hl.total
  have := hl.dataAreaStart
  omega

/-- **The data bitmap has no bit too many** exactly if the blocks left for it and the data area
divide into groups of one bitmap block and the 4096 blocks it describes. -/
theorem Laid.dataBitmap_maximum_le_iff (hl : Laid totalBlocks inodeBitmapBlocks sizes efs) :
    efs.dataBitmap.maximum ≤ sizes.dataAreaBlocks.toNat ↔
      4097 ∣ totalBlocks.toNat - 1 - 1025 * inodeBitmapBlocks.toNat := by
  have := hl.dataBitmapBlocks
  rw [hl.dataTotal_eq, Bitmap.maximum, hl.dataBitmap, blockBits, blockSz]
  dsimp only
  omega

/-- A bit is the first one that is free: those below it are taken, and it is one the bitmap
manages. -/
def FirstFree (bm : Bitmap) (dev : Store) (bit : Nat) : Prop :=
  bit < bm.maximum ∧ bm.testBit dev bit = false ∧ ∀ j < bit, bm.testBit dev j = true

/-- With the bits below it set, a bit is the first that is free. -/
theorem firstFree_filled {bm : Bitmap} {bit : Nat} (h : bit < bm.maximum) :
    FirstFree bm (bm.filled bit) bit := by
  refine ⟨h, ?_, fun j hj => ?_⟩
  · rw [Bitmap.testBit_filled, decide_eq_false (Nat.lt_irrefl bit)]
  · rw [Bitmap.testBit_filled, decide_eq_true hj]

/-- `alloc_data` returns the block of the first free bit, if that is a `u32`. -/
theorem allocData_eq (hspec : AllocSpec alloc) (a : Arith) {dev : Store} {bit : Nat} {id : UInt32}
    (hfree : FirstFree efs.dataBitmap dev bit)
    (hid : id.toNat = bit + efs.dataAreaStartBlock.toNat) :
    efs.allocData alloc a dev = .ok (id, efs.dataBitmap.setBit dev bit) := by
  have hlt := id.toNat_lt
  obtain ⟨x, hx⟩ := exists_toNat_eq (show bit < 2 ^ 32 by omega)
  rw [EasyFileSystem.allocData, hspec.found _ _ bit hfree.1 hfree.2.1 hfree.2.2]
  exact bind_eq_ok.mpr ⟨x, a.asU32_eq_ok hx, bind_eq_ok.mpr ⟨id, a.add_eq_ok (by omega), rfl⟩⟩

/-- **Which file systems hand out blocks of the device only.** In every build, `alloc_data` returns
for every bit of the data bitmap the block of that bit, and this block is on the device, if and only
if 4097 divides the number of blocks left for the data bitmap and the data area. -/
theorem allocData_lt_iff (hspec : AllocSpec alloc)
    (h : layout .exact totalBlocks inodeBitmapBlocks = .ok (sizes, efs)) (a : Arith) :
    (∀ bit < efs.dataBitmap.maximum, ∀ dev, FirstFree efs.dataBitmap dev bit →
      ∃ id dev', efs.allocData alloc a dev = .ok (id, dev') ∧
        id.toNat = bit + efs.dataAreaStartBlock.toNat ∧ id.toNat < totalBlocks.toNat) ↔
      4097 ∣ totalBlocks.toNat - 1 - 1025 * inodeBitmapBlocks.toNat := by
  have hl := laid_of_layout h
  have hend := hl.dataAreaStart_add
  have hlt := totalBlocks.toNat_lt
  rw [← hl.dataBitmap_maximum_le_iff]
  constructor
  · intro hall
    by_contra hmax
    -- the first bit too many
    have hbit : sizes.dataAreaBlocks.toNat < efs.dataBitmap.maximum := Nat.lt_of_not_le hmax
    obtain ⟨id, dev', -, hid, hlt⟩ := hall _ hbit _ (firstFree_filled hbit)
    omega
  · intro hmax bit hbit dev hfree
    obtain ⟨id, hid⟩ := exists_toNat_eq
      (show bit + efs.dataAreaStartBlock.toNat < 2 ^ 32 by omega)
    exact ⟨id, _, allocData_eq hspec a hfree hid, hid, by omega⟩

/-- A device with one data bitmap block and the 4096 blocks it describes. -/
theorem allocData_lt_whole :
    let efs : EasyFileSystem := ⟨⟨1, 1⟩, ⟨1026, 1⟩, 2, 1027⟩
    layout .exact 5123 1 = .ok (⟨1024, 1, 4096⟩, efs) ∧
      ∀ bit < efs.dataBitmap.maximum, ∀ dev, FirstFree efs.dataBitmap dev bit →
        ∃ id dev', efs.allocData Bitmap.allocFirst .release dev = .ok (id, dev') ∧
          id.toNat = bit + 1027 ∧ id.toNat < 5123 := by
  intro efs
  have h : layout .exact 5123 1 = .ok (⟨1024, 1, 4096⟩, efs) := by decide
  exact ⟨h, (allocData_lt_iff Bitmap.allocFirst_spec h .release).mpr (by decide)⟩

/-- On a device of 4096 blocks whose data blocks are all in use, `alloc_data` returns block 4096. -/
theorem allocData_outside :
    let efs : EasyFileSystem := ⟨⟨1, 1⟩, ⟨1026, 1⟩, 2, 1027⟩
    layout .exact 4096 1 = .ok (⟨1024, 1, 3069⟩, efs) ∧ 3069 < efs.dataBitmap.maximum ∧
      ∃ dev dev', FirstFree efs.dataBitmap dev 3069 ∧
        efs.allocData Bitmap.allocFirst .release dev = .ok (4096, dev') ∧ ¬ 3069 + 1027 < 4096 := by
  intro efs
  have hbit : 3069 < efs.dataBitmap.maximum := by decide
  refine ⟨by decide, hbit, efs.dataBitmap.filled 3069, _, firstFree_filled hbit,
    allocData_eq Bitmap.allocFirst_spec .release (firstFree_filled hbit) rfl, by decide⟩

end TinyOS.EasyFs
