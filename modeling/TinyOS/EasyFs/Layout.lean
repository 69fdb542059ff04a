import TinyOS.EasyFs.Basic

/-!
# On-disk structures

`SuperBlock` and `DiskInode` of `easy-fs/src/layout.rs`. Both are `repr(C)` records of `u32`s that
the code reads by viewing the bytes of a block as the record; the codecs say which word is which
field. An inode also counts the blocks a file of some size needs (`total_blocks`).
-/

namespace TinyOS.EasyFs

open Bytes

/-- `EFS_MAGIC`, the number a super block starts with; `open` asserts that it is there. -/
def efsMagic : UInt32 := 0x3b800001

/-- `INODE_DIRECT_COUNT`: how many data blocks an inode names by itself. -/
def inodeDirectCount : Nat := 28

/-- `INODE_INDIRECT1_COUNT`: how many block numbers of 32 bits fit into one block. -/
def inodeIndirect1Count : Nat := blockSz / 4

/-- `INODE_INDIRECT2_COUNT`: how many data blocks two levels of such blocks name. -/
def inodeIndirect2Count : Nat := inodeIndirect1Count * inodeIndirect1Count

/-- `DIRECT_BOUND`: the first data block the inode does not name by itself. -/
def directBound : Nat := inodeDirectCount

/-- `INDIRECT1_BOUND`: the first data block the first indirect block does not name either. -/
def indirect1Bound : Nat := directBound + inodeIndirect1Count

/-- `INDIRECT2_BOUND`: how many data blocks a file can have at all. -/
def indirect2Bound : Nat := indirect1Bound + inodeIndirect2Count

/-- `struct SuperBlock`, in its `repr(C)` layout: the magic number and the sizes of the regions. -/
@[ext]
structure SuperBlock where
  magic : UInt32
  totalBlocks : UInt32
  inodeBitmapBlocks : UInt32
  inodeAreaBlocks : UInt32
  dataBitmapBlocks : UInt32
  dataAreaBlocks : UInt32

namespace SuperBlock

/-- `SuperBlock::initialize`, which sets the magic number and the five sizes: the old value is
not looked at. -/
def initialise (_ : SuperBlock) (totalBlocks inodeBitmapBlocks inodeAreaBlocks dataBitmapBlocks
    dataAreaBlocks : UInt32) : SuperBlock :=
  ⟨efsMagic, totalBlocks, inodeBitmapBlocks, inodeAreaBlocks, dataBitmapBlocks, dataAreaBlocks⟩

/-- `SuperBlock::is_valid`: the magic number is the one of the file system. -/
def isValid (sb : SuperBlock) : Bool := sb.magic == efsMagic

/-- The super block as six words of four bytes, in the order of its fields. -/
def codec : Codec SuperBlock :=
  .ofWords 6
    (fun sb => ![sb.magic, sb.totalBlocks, sb.inodeBitmapBlocks, sb.inodeAreaBlocks,
      sb.dataBitmapBlocks, sb.dataAreaBlocks])
    (fun w => some ⟨w 0, w 1, w 2, w 3, w 4, w 5⟩)
    (fun _ => rfl)

end SuperBlock

/-- `enum DiskInodeType`, whose `repr(u32)` makes bytes with another discriminant no value at
all. -/
inductive DiskInodeType where
  | file
  | directory
  deriving DecidableEq

namespace DiskInodeType

/-- The discriminant a type is stored as, the `repr(u32)` of the `enum`. -/
def toU32 : DiskInodeType → UInt32
  | file => 0
  | directory => 1

/-- The type a discriminant is one of, if it is the discriminant of a type. -/
def ofU32 (w : UInt32) : Option DiskInodeType :=
  if w = 0 then some .file else if w = 1 then some .directory else none

/-- A type is read back from its discriminant, so that a stored inode has the type it was given. -/
theorem ofU32_toU32 (t : DiskInodeType) : ofU32 t.toU32 = some t := by
  cases t <;> rfl

/-- The discriminant a type was read from is the one it is stored as. -/
theorem toU32_of_ofU32 {w : UInt32} {t : DiskInodeType} (h : ofU32 w = some t) :
    t.toU32 = w := by
  unfold ofU32 at h
  split at h
  · rename_i hw
    cases h
    exact hw.symm
  · split at h
    · rename_i hw
      cases h
      exact hw.symm
    · cases h

end DiskInodeType

/-- `struct DiskInode`, in its `repr(C)` layout of 128 bytes: the size, the block numbers and
the type. -/
structure DiskInode where
  size : UInt32
  direct : Fin inodeDirectCount → UInt32
  indirect1 : UInt32
  indirect2 : UInt32
  type : DiskInodeType

namespace DiskInode

/-- `DiskInode::initialize`: an empty file or directory; the old value is not looked at. -/
def initialise (_ : DiskInode) (type : DiskInodeType) : DiskInode :=
  ⟨0, fun _ => 0, 0, 0, type⟩

/-- `DiskInode::is_dir`: whether the inode is of the directory type, and not that of a file. -/
def isDir (di : DiskInode) : Bool := di.type == .directory

/-- `_data_blocks`: the blocks a size needs, rounded up; near `2 ^ 32` the sum overflows. -/
def dataBlocksOf (a : Arith) (size : UInt32) : Except Panic UInt32 := do
  return (← a.sub (← a.add size (.ofNat blockSz)) 1) / .ofNat blockSz

/-- `total_blocks`. The sum is a `usize`; only the result is cast. -/
def totalBlocks (a : Arith) (size : UInt32) : Except Panic UInt32 := do
  let dataBlocks := (← dataBlocksOf a size).toNat
  let total := dataBlocks
  let total := if dataBlocks > inodeDirectCount then total + 1 else total
  let total :=
    if dataBlocks > indirect1Bound then
      total + 1 + (dataBlocks - indirect1Bound + inodeIndirect1Count - 1) / inodeIndirect1Count
    else total
  a.asU32 total

/-- `DiskInode::blocks_num_needed`: the blocks the new size needs beyond those of the old one,
if it is no smaller. -/
def blocksNumNeeded (a : Arith) (di : DiskInode) (newSize : UInt32) : Except Panic UInt32 := do
  if newSize ≥ di.size then
    let new ← totalBlocks a newSize
    let old ← totalBlocks a di.size
    a.sub new old
  else .error (.assertion "new_size >= self.size")

/-- Word `i` of the inode in memory: the size, 28 direct entries, the two indirect ones and the
type. -/
def word (di : DiskInode) (i : Fin 32) : UInt32 :=
  if i.val = 0 then di.size
  else if h : i.val - 1 < inodeDirectCount then di.direct ⟨i.val - 1, h⟩
  else if i.val = 29 then di.indirect1
  else if i.val = 30 then di.indirect2
  else di.type.toU32

/-- The inode of 32 words; the last one must be a discriminant of `DiskInodeType`. -/
def ofWords (w : Fin 32 → UInt32) : Option DiskInode :=
  (DiskInodeType.ofU32 (w ⟨31, by decide⟩)).map fun type =>
    ⟨w ⟨0, by decide⟩,
      fun i => w ⟨i.val + 1, by have := i.isLt; simp only [inodeDirectCount] at this; omega⟩,
      w ⟨29, by decide⟩, w ⟨30, by decide⟩, type⟩

/-- An inode is read back from its words: nothing of its 128 bytes is left out or stands twice. -/
theorem ofWords_word (di : DiskInode) : ofWords di.word = some di := by
  rw [ofWords, show di.word ⟨31, by decide⟩ = di.type.toU32 from rfl, DiskInodeType.ofU32_toU32]
  refine congrArg some ?_
  obtain ⟨size, direct, indirect1, indirect2, type⟩ := di
  refine DiskInode.mk.injEq .. ▸ ⟨rfl, funext fun i => ?_, rfl, rfl, rfl⟩
  have hi : i.val + 1 - 1 < inodeDirectCount := i.isLt
  exact (if_neg (Nat.succ_ne_zero i.val)).trans (dif_pos hi)

/-- The words an inode was read from are the words it is stored as. -/
theorem word_of_ofWords (w : Fin 32 → UInt32) (di : DiskInode) (h : ofWords w = some di) :
    di.word = w := by
  obtain ⟨type, htype, rfl⟩ := Option.map_eq_some_iff.mp h
  funext i
  have htype' := DiskInodeType.toU32_of_ofU32 htype
  unfold word
  split
  · rename_i hi
    exact congrArg w (Fin.ext hi.symm)
  · split
    · exact congrArg w (Fin.ext (by dsimp only; omega))
    · rename_i hpos hdirect
      have := i.isLt
      simp only [inodeDirectCount] at hdirect
      split
      · exact congrArg w (Fin.ext (by dsimp only; omega))
      · split
        · exact congrArg w (Fin.ext (by dsimp only; omega))
        · exact htype'.trans (congrArg w (Fin.ext (by dsimp only; omega)))

/-- The inode as 32 words, 128 bytes, so that four of them fit into a block. -/
def codec : Codec DiskInode := .ofWords 32 word ofWords ofWords_word

/-- A zeroed slot is an empty file: this is what an inode that was never initialised reads as. -/
theorem codec_read_zero (off : Nat) :
    codec.read (fun _ => 0 : Block) off = some ⟨0, fun _ => 0, 0, 0, .file⟩ := by
  rw [Codec.read, Codec.view_zero]
  rfl

end DiskInode

/-- `size_of::<DiskInode>()`, by which `get_disk_inode_pos` divides a block into slots: 32 words
of four bytes. -/
def diskInodeSize : Nat := DiskInode.codec.size

end TinyOS.EasyFs
