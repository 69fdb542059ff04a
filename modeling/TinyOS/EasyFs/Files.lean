import TinyOS.EasyFs.FileBlocks
import TinyOS.EasyFs.TreeOps

/-!
# Files

`Inode::write_at`, `Inode::clear` and `Inode::read_at` (`easy-fs/src/vfs.rs`) over whole histories
of a formatted device. The file system is to be a map from inode numbers to byte strings: `files`
says what the strings are after some events, and `run_files` that they are what is read.

The exercises they call are parameters: `Bitmap::alloc` and `Bitmap::dealloc`, and
`increase_size`, `clear_size`, `read_at` and `write_at` of `DiskInode`. `create` is an exercise as
well; here it allocates and initialises an inode, as its comment requires, and the entry in the
directory is a `write_at` to that.
-/

namespace TinyOS.EasyFs

open Transition

section

variable (alloc : Bitmap → Store → Option Nat × Store)
  (dealloc : Bitmap → Store → Nat → Except Panic Store)
  (grow : UInt32 → List UInt32 → EStateM Panic Held Unit)
  (clearSize : EStateM Panic Held (List UInt32))
  (write : Nat → List UInt8 → EStateM Panic Held Nat)
  (read : Nat → Nat → Held → List UInt8)

namespace EasyFileSystem

/-- The `Inode` of an inode number: the block of its slot and the offset in that. -/
def inodeAt (efs : EasyFileSystem) (id : UInt32) : Inode :=
  ⟨(efs.getDiskInodePos id).1, (efs.getDiskInodePos id).2⟩

/-- The inode in its slot, an empty one if there is none. -/
def diskInode (efs : EasyFileSystem) (dev : Store) (id : UInt32) : DiskInode :=
  match (efs.inodeAt id).readDiskInode dev fun di => di with
  | .ok di => di
  | .error _ => ⟨0, fun _ => 0, 0, 0, .file⟩

/-- A file on the device: its inode, taken from its slot, together with the device. -/
def held (efs : EasyFileSystem) (dev : Store) (id : UInt32) : Held := ⟨efs.diskInode dev id, dev⟩

end EasyFileSystem

namespace Inode

/-- `Inode::read_at`, with the bytes it puts into a buffer of length `len`. -/
def readAt (inode : Inode) (offset len : Nat) (dev : Store) : Except Panic (List UInt8) :=
  inode.readDiskInode dev fun diskInode => read offset len ⟨diskInode, dev⟩

/-- `Inode::clear`: the file is emptied, and its blocks are given back one by one. -/
def clear (a : Arith) (efs : EasyFileSystem) (inode : Inode) : EStateM Panic Store Unit :=
  inode.modifyDiskInode do
    efs.deallocLoop dealloc a (← clearSize)

/-- The initialisation of a new inode as a file, in the slot of its number. -/
def initFile (inode : Inode) : EStateM Panic Store Unit :=
  inode.modifyDiskInode (modify fun s => { s with inode := s.inode.initialise .file })

end Inode

/-! ## The system -/

/-- The device and the inodes that have been allocated, of which the root directory's is the
first. -/
structure Files where
  dev : Store
  inodes : List UInt32

namespace Files

/-- What happens to the files: a new one, a write to one, or one that is cleared. -/
inductive Event where
  | create (id : UInt32)
  | write (id : UInt32) (offset : Nat) (buf : List UInt8)
  | clear (id : UInt32)

/-- The byte strings the inode numbers stand for after an event; a write behind the end fills up
with zeros. -/
def after (file : UInt32 → List UInt8) : Event → UInt32 → List UInt8
  | .create id | .clear id => Function.update file id []
  | .write id offset buf =>
    Function.update file id (Overwrite.overwrite 0 (file id) offset buf)

/-- The byte strings after some events, from none at all: what the file system is to keep. -/
def files (tr : List Event) : UInt32 → List UInt8 := tr.foldl after fun _ => []

variable (a : Arith) (efs : EasyFileSystem)

/-- A step of the file system by its own code, with an inode that has been allocated. -/
inductive Step (s : Files) : Event → Files → Prop where
  | create {id : UInt32} {dev dev' : Store} (halloc : efs.allocInode alloc a s.dev = .ok (id, dev))
      (hinit : (efs.inodeAt id).initFile dev = .ok () dev') :
      Step s (.create id) ⟨dev', id :: s.inodes⟩
  /-- A write that does not end behind the last byte the tree can address. -/
  | write {id : UInt32} {offset n : Nat} {buf : List UInt8} {dev : Store} (hid : id ∈ s.inodes)
      (hend : offset + buf.length ≤ indirect2Bound * blockSz)
      (hwrite : (efs.inodeAt id).writeAt alloc grow write a efs offset buf s.dev = .ok n dev) :
      Step s (.write id offset buf) ⟨dev, s.inodes⟩
  | clear {id : UInt32} {dev : Store} (hid : id ∈ s.inodes)
      (hclear : (efs.inodeAt id).clear dealloc clearSize a efs s.dev = .ok () dev) :
      Step s (.clear id) ⟨dev, s.inodes⟩

/-- A device as `create` leaves it, with the root inode. -/
def system (totalBlocks inodeBitmapBlocks : UInt32) : System Files Event where
  init s := s.inodes = [0] ∧
    ∃ dev, EasyFileSystem.create alloc a dev totalBlocks inodeBitmapBlocks = .ok (efs, s.dev)
  step := Step alloc dealloc grow clearSize write a efs

end Files

end

variable {alloc : Bitmap → Store → Option Nat × Store}
  {dealloc : Bitmap → Store → Nat → Except Panic Store}
  {grow : UInt32 → List UInt32 → EStateM Panic Held Unit}
  {clearSize : EStateM Panic Held (List UInt32)}
  {write : Nat → List UInt8 → EStateM Panic Held Nat}
  {a : Arith} {totalBlocks inodeBitmapBlocks : UInt32} {sizes : Sizes} {efs : EasyFileSystem}

/-! ## Inodes in their slots -/

section

variable {id id' : UInt32} {dev dev' : Store} {h : Held}

/-- The data bitmap lies behind the super block, the inode bitmap and the inode area. -/
theorem Laid.dataBitmap_start (hl : Laid totalBlocks inodeBitmapBlocks sizes efs) :
    efs.dataBitmap.startBlockId =
      1 + inodeBitmapBlocks.toNat + sizes.inodeAreaBlocks.toNat := by rw [hl.dataBitmap]

/-- The bits of the inode bitmap are inode numbers: with at most `2 ^ 20` blocks they fit into a
`u32`. -/
theorem Laid.inodeBitmap_maximum_le (hl : Laid totalBlocks inodeBitmapBlocks sizes efs)
    (hI : inodeBitmapBlocks.toNat ≤ 2 ^ 20) : efs.inodeBitmap.maximum ≤ 2 ^ 32 := by
  rw [hl.inodeBitmap_maximum]
  omega

/-- The inode bitmap lies behind the super block and before the slots of the inodes. -/
theorem Laid.inodeBitmap_blockOf_lt (hl : Laid totalBlocks inodeBitmapBlocks sizes efs) {bit : Nat}
    (hbit : bit < efs.inodeBitmap.maximum) :
    0 < efs.inodeBitmap.blockOf bit ∧
      efs.inodeBitmap.blockOf bit < 1 + inodeBitmapBlocks.toNat := by
  have hblock := Bitmap.blockOf_lt hbit
  have hstart : efs.inodeBitmap.startBlockId = 1 ∧
      efs.inodeBitmap.blocks = inodeBitmapBlocks.toNat := by
    rw [hl.inodeBitmap]
    exact ⟨rfl, rfl⟩
  omega

/-- The slots lie between the inode bitmap and the data bitmap, each inside one block. -/
theorem Laid.inodeAt_slot (hl : Laid totalBlocks inodeBitmapBlocks sizes efs)
    (hid : id.toNat < efs.inodeBitmap.maximum) :
    1 + inodeBitmapBlocks.toNat ≤ (efs.inodeAt id).blockId.toNat ∧
      (efs.inodeAt id).blockId.toNat < efs.dataBitmap.startBlockId ∧
      (efs.inodeAt id).blockOffset + DiskInode.codec.size ≤ blockSz := by
  obtain ⟨hmem, hle⟩ := hl.slot_mem hid
  have := hl.mem_inodeRegion.mp hmem
  have := hl.inodeAreaStart
  have := hl.inodeArea
  have := hl.dataBitmap_start
  refine ⟨?_, ?_, hle⟩
  · show _ ≤ (efs.getDiskInodePos id).1.toNat
    omega
  · show (efs.getDiskInodePos id).1.toNat < _
    omega

/-- Reading an inode looks at the block of its slot only. -/
theorem Inode.readDiskInode_congr {V : Type} {inode : Inode} {f : DiskInode → V}
    (hdev : dev' inode.blockId.toNat = dev inode.blockId.toNat) :
    inode.readDiskInode dev' f = inode.readDiskInode dev f := by
  rw [readDiskInode, readBlock, hdev]
  rfl

/-- If the inode can be read, a closure that reads it gets this value. -/
theorem Inode.readDiskInode_eq {V : Type} {inode : Inode} {di : DiskInode} (f : DiskInode → V)
    (h : (inode.readDiskInode dev fun di => di) = .ok di) :
    inode.readDiskInode dev f = .ok (f di) := by
  rw [readDiskInode, readBlock] at h ⊢
  obtain ⟨_, hbound, h⟩ := bind_eq_ok.mp h
  obtain ⟨di', hdi, h⟩ := bind_eq_ok.mp h
  cases h
  exact bind_eq_ok.mpr ⟨_, hbound, bind_eq_ok.mpr ⟨_, hdi, rfl⟩⟩

/-- The closure of `modify_disk_inode` works on the inode that is read. -/
theorem Inode.modifyDiskInode_eq {V : Type} {inode : Inode} (h : Held)
    (hread : (inode.readDiskInode h.dev fun di => di) = .ok h.inode) {f : EStateM Panic Held V} :
    (∀ v h', f h = .ok v h' → inode.modifyDiskInode f h.dev = .ok v (inode.put h')) ∧
    ∀ e h', f h = .error e h' → inode.modifyDiskInode f h.dev = .error e (inode.put h') := by
  obtain ⟨di, dev⟩ := h
  have hdi := Inode.readDiskInode_eq id hread
  refine ⟨fun v h' hok => ?_, fun e h' herr => ?_⟩
  · simp only [Inode.modifyDiskInode, hdi, id_eq, hok]
  · simp only [Inode.modifyDiskInode, hdi, id_eq, herr]

/-- Mounting reads the super block, block 0, and nothing else of the device. -/
theorem EasyFileSystem.openEfs_congr (a : Arith) (hdev : dev' 0 = dev 0) :
    EasyFileSystem.openEfs a dev' = EasyFileSystem.openEfs a dev := by
  rw [openEfs, readBlock, hdev]
  rfl

/-- An inode that can be read from its slot is the inode of its number. -/
theorem EasyFileSystem.diskInode_eq {di : DiskInode}
    (h : ((efs.inodeAt id).readDiskInode dev fun di => di) = .ok di) :
    efs.diskInode dev id = di := by
  rw [diskInode, h]

/-- The inode that has been put back is read from its slot, with every field as the closure left
it. -/
theorem Laid.readDiskInode_put (hl : Laid totalBlocks inodeBitmapBlocks sizes efs)
    (hid : id.toNat < efs.inodeBitmap.maximum) :
    ((efs.inodeAt id).readDiskInode ((efs.inodeAt id).put h) fun di => di) = .ok h.inode :=
  readBlock_write DiskInode.codec _ (hl.inodeAt_slot hid).2.2 (Function.update_self ..)

/-- The other slots stay as they are, also those in the same block. -/
theorem Laid.readDiskInode_put_of_ne (hl : Laid totalBlocks inodeBitmapBlocks sizes efs)
    (hid : id.toNat < efs.inodeBitmap.maximum) (hid' : id'.toNat < efs.inodeBitmap.maximum)
    (hne : id' ≠ id) :
    ((efs.inodeAt id').readDiskInode ((efs.inodeAt id).put h) fun di => di) =
      (efs.inodeAt id').readDiskInode h.dev fun di => di := by
  by_cases hb : (efs.inodeAt id').blockId.toNat = (efs.inodeAt id).blockId.toNat
  · have hread : DiskInode.codec.read ((efs.inodeAt id).put h (efs.inodeAt id').blockId.toNat)
        (efs.inodeAt id').blockOffset =
          DiskInode.codec.read (h.dev (efs.inodeAt id').blockId.toNat)
            (efs.inodeAt id').blockOffset := by
      rw [hb, Inode.put, Function.update_self]
      refine Bytes.Codec.ofWords_read_congr fun i hle hlt => if_neg fun hin => hne ?_
      exact hl.slot_inj (b := (efs.inodeAt id).blockId.toNat) (o := i) hid' hid ⟨hb, hle, hlt⟩
        ⟨rfl, hin.1, hin.2⟩
    rw [Inode.readDiskInode, readBlock, valueAt, hread]
    rfl
  · exact Inode.readDiskInode_congr (Function.update_of_ne hb ..)

end

/-! ## The invariant -/

/-- The blocks of the file are on the device. The data bitmap may have bits for more. -/
def Held.Real (totalBlocks : UInt32) (h : Held) : Prop :=
  ∀ b ∈ h.blocks, b.toNat < totalBlocks.toNat

namespace Files

/-- No two files share a block, and they have the bytes of `file`. -/
structure Apart (totalBlocks : UInt32) (inodes : List UInt32) (held : UInt32 → Held)
    (file : UInt32 → List UInt8) : Prop where
  sound : ∀ id ∈ inodes, (held id).Sound
  disjoint : ∀ id ∈ inodes, ∀ id' ∈ inodes, id ≠ id' → Disjoint (held id).blocks (held id').blocks
  content : ∀ id ∈ inodes, (held id).Real totalBlocks →
    (held id).contents = file id ∧ (held id).Padded

/-- The allocated inodes are those of the inode bitmap, and the blocks somebody has are those of the
files. -/
structure Inv (totalBlocks : UInt32) (efs : EasyFileSystem) (file : UInt32 → List UInt8)
    (s : Files) : Prop where
  nodup : s.inodes.Nodup
  lt : ∀ id ∈ s.inodes, id.toNat < efs.inodeBitmap.maximum
  bits : ∀ bit < efs.inodeBitmap.maximum, efs.inodeBitmap.testBit s.dev bit = true ↔
    ∃ id ∈ s.inodes, id.toNat = bit
  valid : ∀ id : UInt32, id.toNat < efs.inodeBitmap.maximum →
    ((efs.inodeAt id).readDiskInode s.dev fun di => di) = .ok (efs.diskInode s.dev id)
  apart : Apart totalBlocks s.inodes (efs.held s.dev) file
  owned : ∃ owned, Blocks.Inv totalBlocks efs ⟨s.dev, owned⟩ ∧
    ∀ b, b ∈ owned ↔ ∃ id ∈ s.inodes, b ∈ (efs.held s.dev id).blocks
  mount : ∀ a, EasyFileSystem.openEfs a s.dev = .ok efs

variable {s s' : Files} {file : UInt32 → List UInt8} {id id' : UInt32} {h : Held}
  {inodes inodes' : List UInt32} {held held' : UInt32 → Held} {bytes : List UInt8}

/-- Files that share no block do so as long as each of them keeps its tree and its bytes. -/
theorem Apart.congr (hapart : Apart totalBlocks inodes held file)
    (hsame : ∀ id ∈ inodes, (held id).Same (held' id)) : Apart totalBlocks inodes held' file := by
  refine ⟨fun id hid => ?_, fun id hid id' hid' hne => ?_, fun id hid hreal => ?_⟩
  · exact (hsame id hid).sound (hapart.sound id hid)
  · rw [(hsame id hid).blocks, (hsame id' hid').blocks]
    exact hapart.disjoint id hid id' hid' hne
  · rw [Held.Real, (hsame id hid).blocks] at hreal
    obtain ⟨hbytes, hpad⟩ := hapart.content id hid hreal
    exact ⟨(hsame id hid).contents.trans hbytes, (hsame id hid).padded hpad⟩

/-- A file is replaced, or a new one is added. -/
theorem Apart.update (hapart : Apart totalBlocks inodes held file)
    (hmem : ∀ id', id' ∈ inodes' ↔ id' = id ∨ id' ∈ inodes) (hsound : h.Sound)
    (hdisjoint : ∀ id' ∈ inodes, id' ≠ id → Disjoint h.blocks (held id').blocks)
    (hcontent : h.Real totalBlocks → h.contents = bytes ∧ h.Padded) :
    Apart totalBlocks inodes' (Function.update held id h) (Function.update file id bytes) := by
  have hold : ∀ id' ∈ inodes', id' ≠ id → id' ∈ inodes :=
    fun id' hid' hne => ((hmem id').mp hid').resolve_left hne
  refine ⟨fun i hi => ?_, fun i hi j hj hne => ?_, fun i hi => ?_⟩
  · by_cases heq : i = id
    · rw [heq, Function.update_self]
      exact hsound
    · rw [Function.update_of_ne heq]
      exact hapart.sound i (hold i hi heq)
  · by_cases hii : i = id <;> by_cases hjj : j = id
    · exact absurd (hii.trans hjj.symm) hne
    · rw [hii, Function.update_self, Function.update_of_ne hjj]
      exact hdisjoint j (hold j hj hjj) hjj
    · rw [hjj, Function.update_self, Function.update_of_ne hii]
      exact (hdisjoint i (hold i hi hii) hii).symm
    · rw [Function.update_of_ne hii, Function.update_of_ne hjj]
      exact hapart.disjoint i (hold i hi hii) j (hold j hj hjj) hne
  · by_cases heq : i = id
    · rw [heq, Function.update_self, Function.update_self]
      exact hcontent
    · rw [Function.update_of_ne heq, Function.update_of_ne heq]
      exact hapart.content i (hold i hi heq)

/-- What a call does to the device when it has worked on the file `id` as `h`: the inode goes back
into its slot, which may be new, and the slots and the blocks of the other files stay as they
are. -/
structure Changed (totalBlocks inodeBitmapBlocks : UInt32) (efs : EasyFileSystem) (s : Files)
    (id : UInt32) (h : Held) (inodes : List UInt32) : Prop where
  lt : id.toNat < efs.inodeBitmap.maximum
  nodup : inodes.Nodup
  mem : ∀ id', id' ∈ inodes ↔ id' = id ∨ id' ∈ s.inodes
  bits : ∀ bit < efs.inodeBitmap.maximum, efs.inodeBitmap.testBit h.dev bit = true ↔
    ∃ id ∈ inodes, id.toNat = bit
  slots : ∀ n, 1 + inodeBitmapBlocks.toNat ≤ n → n < efs.dataBitmap.startBlockId →
    h.dev n = s.dev n
  frame : ∀ id' ∈ s.inodes, id' ≠ id → ∀ b ∈ (efs.held s.dev id').blocks,
    h.dev b.toNat = s.dev b.toNat
  owned : ∃ owned, Blocks.Inv totalBlocks efs ⟨h.dev, owned⟩ ∧ ∀ b, b ∈ owned ↔
    b ∈ h.blocks ∨ ∃ id' ∈ s.inodes, id' ≠ id ∧ b ∈ (efs.held s.dev id').blocks
  super : h.dev 0 = s.dev 0

/-- The slots after the inode has been put back: it is in its own, and the others hold what they
held. -/
theorem Changed.readDiskInode (hl : Laid totalBlocks inodeBitmapBlocks sizes efs)
    (hinv : Inv totalBlocks efs file s)
    (hc : Changed totalBlocks inodeBitmapBlocks efs s id h inodes)
    (hlt : id'.toNat < efs.inodeBitmap.maximum) :
    ((efs.inodeAt id').readDiskInode ((efs.inodeAt id).put h) fun di => di) =
      .ok (Function.update (efs.diskInode s.dev) id h.inode id') := by
  by_cases heq : id' = id
  · rw [heq, Function.update_self]
    exact hl.readDiskInode_put hc.lt
  · obtain ⟨hle, hlt', -⟩ := hl.inodeAt_slot hlt
    rw [Function.update_of_ne heq, hl.readDiskInode_put_of_ne hc.lt hlt heq,
      Inode.readDiskInode_congr (hc.slots _ hle hlt')]
    exact hinv.valid id' hlt

/-- The files after the inode has been put back: all but the one that was worked on are as they
were. -/
theorem Changed.same (hl : Laid totalBlocks inodeBitmapBlocks sizes efs) (hfit : Fits efs)
    (hinv : Inv totalBlocks efs file s)
    (hc : Changed totalBlocks inodeBitmapBlocks efs s id h inodes) :
    ∀ id' ∈ inodes, (Function.update (efs.held s.dev) id h id').Same
      (efs.held ((efs.inodeAt id).put h) id') := by
  obtain ⟨hslot, hslot', -⟩ := hl.inodeAt_slot hc.lt
  obtain ⟨owned, hblocks, howned⟩ := hc.owned
  have hadj := hfit.adjacent
  -- `put` writes the block of the slot only
  have hput : ∀ b ∈ owned, (efs.inodeAt id).put h b.toNat = h.dev b.toNat := by
    intro b hb
    have := hblocks.le_of_mem hb
    exact Function.update_of_ne (by omega) ..
  intro id' hid'
  by_cases heq : id' = id
  · have hread := hc.readDiskInode hl hinv hc.lt
    rw [Function.update_self] at hread
    rw [heq, Function.update_self]
    exact Held.Same.of_dev (EasyFileSystem.diskInode_eq hread)
      fun b hb => hput b ((howned b).mpr (.inl hb))
  · have hmem := ((hc.mem id').mp hid').resolve_left heq
    have hread := hc.readDiskInode hl hinv (hinv.lt id' hmem)
    rw [Function.update_of_ne heq] at hread
    rw [Function.update_of_ne heq]
    refine Held.Same.of_dev (EasyFileSystem.diskInode_eq hread) fun b hb => ?_
    exact (hput b ((howned b).mpr (.inr ⟨id', hmem, heq, hb⟩))).trans (hc.frame id' hmem heq b hb)

/-- **One file changes.** The invariant holds again if that file is sound and padded with bytes
as they should be, and shares no block with another. -/
theorem Changed.inv (hl : Laid totalBlocks inodeBitmapBlocks sizes efs) (hfit : Fits efs)
    (hinv : Inv totalBlocks efs file s)
    (hc : Changed totalBlocks inodeBitmapBlocks efs s id h inodes) (hsound : h.Sound)
    (hdisjoint : ∀ id' ∈ s.inodes, id' ≠ id → Disjoint h.blocks (efs.held s.dev id').blocks)
    (hcontent : h.Real totalBlocks → h.contents = bytes ∧ h.Padded) :
    Inv totalBlocks efs (Function.update file id bytes) ⟨(efs.inodeAt id).put h, inodes⟩ := by
  obtain ⟨hslot, hslot', -⟩ := hl.inodeAt_slot hc.lt
  have hheld := hc.same hl hfit hinv
  have hadj := hfit.adjacent
  have hput : ∀ n, n ≠ (efs.inodeAt id).blockId.toNat → (efs.inodeAt id).put h n = h.dev n :=
    fun n hn => Function.update_of_ne hn ..
  refine ⟨hc.nodup, fun id' hid' => ?_, fun bit hbit => ?_, fun id' hlt => ?_, ?_, ?_,
    fun a => ?_⟩
  · rcases (hc.mem id').mp hid' with rfl | hid'
    · exact hc.lt
    · exact hinv.lt id' hid'
  · have hblock := hl.inodeBitmap_blockOf_lt hbit
    rw [← hc.bits bit hbit, Bitmap.testBit_congr (hput _ (by omega))]
  · have hread := hc.readDiskInode hl hinv hlt
    rw [EasyFileSystem.diskInode_eq hread]
    exact hread
  · exact (hinv.apart.update hc.mem hsound hdisjoint hcontent).congr hheld
  · obtain ⟨owned, hblocks, howned⟩ := hc.owned
    refine ⟨owned, hblocks.write (fun bit hbit => ?_) (fun n hn _ => hput _ (by omega)),
      fun b => ?_⟩
    · have := hfit.blockOf_lt hbit
      exact hput _ (by omega)
    · rw [howned]
      constructor
      · rintro (hb | ⟨id', hid', hne, hb⟩)
        · have hid := (hc.mem id).mpr (.inl rfl)
          refine ⟨id, hid, ?_⟩
          rw [(hheld id hid).blocks, Function.update_self]
          exact hb
        · have hid' := (hc.mem id').mpr (.inr hid')
          refine ⟨id', hid', ?_⟩
          rw [(hheld id' hid').blocks, Function.update_of_ne hne]
          exact hb
      · rintro ⟨id', hid', hb⟩
        rw [(hheld id' hid').blocks] at hb
        by_cases heq : id' = id
        · rw [heq, Function.update_self] at hb
          exact .inl hb
        · rw [Function.update_of_ne heq] at hb
          exact .inr ⟨id', ((hc.mem id').mp hid').resolve_left heq, heq, hb⟩
  · rw [EasyFileSystem.openEfs_congr a ((hput 0 (by omega)).trans hc.super)]
    exact hinv.mount a

/-- Calls that write to the data bitmap and to blocks no other file has. -/
theorem Changed.of_untouched (hl : Laid totalBlocks inodeBitmapBlocks sizes efs)
    (hinv : Inv totalBlocks efs file s) (hid : id ∈ s.inodes) {touched : UInt32 → Prop}
    (hdev : Untouched efs touched s.dev h.dev)
    (harea : ∀ b, touched b → efs.dataAreaStartBlock.toNat ≤ b.toNat)
    (hothers : ∀ id' ∈ s.inodes, id' ≠ id → ∀ b ∈ (efs.held s.dev id').blocks, ¬ touched b)
    (howned : ∃ owned, Blocks.Inv totalBlocks efs ⟨h.dev, owned⟩ ∧ ∀ b, b ∈ owned ↔
      b ∈ h.blocks ∨ ∃ id' ∈ s.inodes, id' ≠ id ∧ b ∈ (efs.held s.dev id').blocks) :
    Changed totalBlocks inodeBitmapBlocks efs s id h s.inodes := by
  obtain ⟨owned, hblocks, hmem⟩ := hinv.owned
  have hstart := hl.dataBitmap_start
  have hstart' := hl.dataAreaStart
  have hbefore : ∀ n, n < efs.dataBitmap.startBlockId → h.dev n = s.dev n := by
    refine fun n hn => hdev n (.inl hn) fun b hb => ?_
    have := harea b hb
    omega
  refine ⟨hinv.lt id hid, hinv.nodup, fun id' => ?_, fun bit hbit => ?_, fun n _ hn => hbefore n hn,
    fun id' hid' hne b hb => ?_, howned, hbefore 0 (by omega)⟩
  · exact ⟨.inr, fun h => h.elim (fun heq => heq ▸ hid) (fun h => h)⟩
  · have hblock := hl.inodeBitmap_blockOf_lt hbit
    rw [Bitmap.testBit_congr (hbefore _ (by omega))]
    exact hinv.bits bit hbit
  · refine hdev _ (.inr (hblocks.le_of_mem ((hmem b).mpr ⟨id', hid', hb⟩))) fun b' hb' heq => ?_
    exact hothers id' hid' hne b hb (UInt32.toNat_inj.mp heq ▸ hb')

/-- The blocks of the others, beside those of one file. -/
theorem mem_others (hid : id ∈ s.inodes) {b : UInt32} :
    (∃ id' ∈ s.inodes, b ∈ (efs.held s.dev id').blocks) ↔ b ∈ (efs.held s.dev id).blocks ∨
      ∃ id' ∈ s.inodes, id' ≠ id ∧ b ∈ (efs.held s.dev id').blocks := by
  constructor
  · rintro ⟨id', hid', hb⟩
    by_cases heq : id' = id
    · exact .inl (heq ▸ hb)
    · exact .inr ⟨id', hid', heq, hb⟩
  · rintro (hb | ⟨id', hid', -, hb⟩)
    · exact ⟨id, hid, hb⟩
    · exact ⟨id', hid', hb⟩

/-- A file that has grown and been written: the invariant holds with its bytes overwritten, and
the other files keep theirs. -/
theorem Inv.written (hl : Laid totalBlocks inodeBitmapBlocks sizes efs) (hfit : Fits efs)
    (hinv : Inv totalBlocks efs file s) (hid : id ∈ s.inodes) {offset : Nat} {buf : List UInt8}
    {owned v : List UInt32} {h₁ h₂ : Held}
    (hmem : ∀ b, b ∈ owned ↔ ∃ id ∈ s.inodes, b ∈ (efs.held s.dev id).blocks)
    (hlarge : Enlarged totalBlocks efs (efs.held s.dev id) owned (offset + buf.length) v h₁)
    (hwritten : Written h₁ offset buf h₂) :
    Inv totalBlocks efs (after file (.write id offset buf))
      ⟨(efs.inodeAt id).put h₂, s.inodes⟩ := by
  have hsame : h₂.blocks = h₁.blocks := hwritten.blocks hlarge.sound
  have hblocks : h₂.blocks = (efs.held s.dev id).blocks ∪ v.toFinset := by
    rw [hsame, hlarge.blocks]
  obtain ⟨owned', hb', hmem'⟩ := hlarge.inv
  have hmem₂ : ∀ b, b ∈ owned' ↔ b ∈ h₂.blocks ∨
      ∃ id' ∈ s.inodes, id' ≠ id ∧ b ∈ (efs.held s.dev id').blocks := by
    intro b
    rw [hmem', hmem, mem_others hid, hblocks, Finset.mem_union, List.mem_toFinset, ← or_assoc,
      or_comm (a := b ∈ v)]
  have hdisjoint : ∀ id' ∈ s.inodes, id' ≠ id →
      Disjoint h₂.blocks (efs.held s.dev id').blocks := by
    intro id' hid' hne
    rw [hblocks, Finset.disjoint_union_left]
    refine ⟨hinv.apart.disjoint id hid id' hid' hne.symm, Finset.disjoint_left.mpr ?_⟩
    exact fun b hbv hbm => hlarge.fresh b (List.mem_toFinset.mp hbv) ((hmem b).mpr ⟨id', hid', hbm⟩)
  have hframe : ∀ n, (∀ b ∈ h₂.blocks, b.toNat ≠ n) → h₂.dev n = h₁.dev n := by
    refine fun n hn => hwritten.frame n fun i hi => hn _ ?_
    rw [hsame]
    exact Held.blockAt_mem (data_mem_tree.mpr hi)
  have hdev : Untouched efs (· ∈ h₂.blocks) s.dev h₂.dev := by
    intro n hn hne
    rw [hframe n hne]
    exact hlarge.frame n hn (hsame ▸ hne)
  have harea : ∀ b ∈ h₂.blocks, efs.dataAreaStartBlock.toNat ≤ b.toNat := fun b hbm =>
    hb'.le_of_mem ((hmem₂ b).mpr (.inl hbm))
  have hb₂ : Blocks.Inv totalBlocks efs ⟨h₂.dev, owned'⟩ := by
    refine hb'.write (fun bit hbit => hframe _ fun b hbm => ?_) (fun n _ hne => hframe _ ?_)
    · have := hfit.blockOf_lt hbit
      have := harea b hbm
      omega
    · exact fun b hbm => hne b ((hmem₂ b).mpr (.inl hbm))
  have hchanged : Changed totalBlocks inodeBitmapBlocks efs s id h₂ s.inodes :=
    .of_untouched hl hinv hid hdev harea (fun id' hid' hne b hbm hbm' =>
      Finset.disjoint_left.mp (hdisjoint id' hid' hne) hbm' hbm) ⟨owned', hb₂, hmem₂⟩
  refine hchanged.inv hl hfit hinv (hwritten.sound hlarge.sound) hdisjoint fun hreal => ?_
  rw [Held.Real, hblocks] at hreal
  obtain ⟨hbytes, hpad⟩ := hinv.apart.content id hid fun b hbm =>
    hreal b (Finset.mem_union_left _ hbm)
  rw [← hbytes]
  refine hwritten.contents_eq hlarge.sound ?_ (hlarge.bytes hpad fun b hbv => ?_)
  · rw [hlarge.size, Held.length_contents]
  · exact hreal b (Finset.mem_union_right _ (List.mem_toFinset.mpr hbv))

/-- **`Inode::write_at`** succeeds if and only if there are enough free bits for the blocks the file
needs. -/
theorem Inv.writeAt_cases (hspec : AllocSpec alloc) (hgrow : GrowSpec grow)
    (hwrite : WriteSpec write) (hl : Laid totalBlocks inodeBitmapBlocks sizes efs)
    (hfit : Fits efs) (a : Arith) (hinv : Inv totalBlocks efs file s) (hid : id ∈ s.inodes)
    {offset : Nat} {buf : List UInt8} (hend : offset + buf.length ≤ indirect2Bound * blockSz) :
    ((efs.dataBitmap.free s.dev).card + (efs.held s.dev id).nodes.card <
        (tree (dataBlocks (offset + buf.length))).card ∧
      ∃ e dev, (efs.inodeAt id).writeAt alloc grow write a efs offset buf s.dev = .error e dev) ∨
    ((tree (dataBlocks (offset + buf.length))).card ≤
        (efs.dataBitmap.free s.dev).card + (efs.held s.dev id).nodes.card ∧
      ∃ dev, (efs.inodeAt id).writeAt alloc grow write a efs offset buf s.dev =
          .ok buf.length dev ∧
        Inv totalBlocks efs (after file (.write id offset buf)) ⟨dev, s.inodes⟩) := by
  obtain ⟨owned, hb, hmem⟩ := hinv.owned
  have hsub : ∀ b ∈ (efs.held s.dev id).blocks, b ∈ owned := fun b hbm =>
    (hmem b).mpr ⟨id, hid, hbm⟩
  have hlt : indirect2Bound * blockSz < 2 ^ 32 := by decide
  obtain ⟨newSize, hnew, hsize⟩ := writeEnd_eq a (show offset + buf.length < 2 ^ 32 by omega)
  have hrun : (efs.inodeAt id).writeAt alloc grow write a efs offset buf =
      (efs.inodeAt id).modifyDiskInode (ofExcept (Inode.writeEnd a offset buf.length) >>= fun n =>
        Inode.increaseSize alloc grow a efs n >>= fun _ => write offset buf) := rfl
  have hread := hinv.valid id (hinv.lt id hid)
  have hroom : newSize.toNat ≤ indirect2Bound * blockSz := hsize ▸ hend
  rw [hrun, ← hsize]
  rcases increaseSize_cases hspec hgrow hfit a hb (hinv.apart.sound id hid) hsub hroom with
    ⟨hfew, e, h', herr⟩ | ⟨henough, v, h₁, hinc, hlarge⟩
  · refine .inl ⟨hfew, e, _,
      (Inode.modifyDiskInode_eq (efs.held s.dev id) hread).2 e h' ?_⟩
    rw [run_bind_ok (run_ofExcept_ok hnew _)]
    exact run_bind_error herr
  · obtain ⟨h₂, hw, hwritten⟩ := hwrite h₁ offset buf hlarge.sound (by rw [hlarge.size]; omega)
    refine .inr ⟨henough, _,
      (Inode.modifyDiskInode_eq (efs.held s.dev id) hread).1 buf.length h₂ ?_,
      hinv.written hl hfit hid hmem (hsize ▸ hlarge) hwritten⟩
    rw [run_bind_ok (run_ofExcept_ok hnew _), run_bind_ok hinc]
    exact hw

/-- **`Inode::clear`** always succeeds: the file has no bytes then, and its blocks are free. -/
theorem Inv.clear_eq (hdspec : DeallocSpec dealloc) (hclear : ClearSpec clearSize)
    (hl : Laid totalBlocks inodeBitmapBlocks sizes efs) (hfit : Fits efs) (a : Arith)
    (hinv : Inv totalBlocks efs file s) (hid : id ∈ s.inodes) :
    ∃ dev, (efs.inodeAt id).clear dealloc clearSize a efs s.dev = .ok () dev ∧
      Inv totalBlocks efs (after file (.clear id)) ⟨dev, s.inodes⟩ := by
  obtain ⟨owned, hb, hmem⟩ := hinv.owned
  obtain ⟨freed, h₁, hsize, hcleared⟩ := hclear _ (hinv.apart.sound id hid)
  have hb₁ : Blocks.Inv totalBlocks efs ⟨h₁.dev, owned⟩ := by
    rw [hcleared.dev]
    exact hb
  obtain ⟨dev, owned', hloop, hb', hmem', hdev⟩ := deallocLoop_inv hdspec hfit a hb₁ hcleared.nodup
    fun b hbf => (hmem b).mpr ⟨id, hid, (hcleared.mem b).mp hbf⟩
  rw [hcleared.dev] at hdev
  have hzero : Held.size { h₁ with dev } = 0 := congrArg UInt32.toNat hcleared.size
  obtain ⟨-, hsound, hblocks, hcontents, hpad⟩ := Held.of_size_eq_zero hzero
  have hothers : ∀ id' ∈ s.inodes, id' ≠ id → ∀ b ∈ (efs.held s.dev id').blocks, b ∉ freed := by
    intro id' hid' hne b hbm hbf
    exact Finset.disjoint_left.mp (hinv.apart.disjoint id' hid' id hid hne) hbm
      ((hcleared.mem b).mp hbf)
  have hchanged : Changed totalBlocks inodeBitmapBlocks efs s id { h₁ with dev } s.inodes := by
    refine .of_untouched hl hinv hid hdev (fun b hbf => ?_) hothers ⟨owned', hb', fun b => ?_⟩
    · exact hb.le_of_mem ((hmem b).mpr ⟨id, hid, (hcleared.mem b).mp hbf⟩)
    · rw [hmem', hmem, mem_others hid, hcleared.mem, hblocks]
      constructor
      · rintro ⟨hbm | hbm, hnot⟩
        · exact absurd hbm hnot
        · exact .inr hbm
      · rintro (hbm | ⟨id', hid', hne, hbm⟩)
        · exact absurd hbm (Finset.notMem_empty b)
        · exact ⟨.inr ⟨id', hid', hne, hbm⟩, fun hbf =>
            hothers id' hid' hne b hbm ((hcleared.mem b).mpr hbf)⟩
  have hread := hinv.valid id (hinv.lt id hid)
  refine ⟨_, (Inode.modifyDiskInode_eq (efs.held s.dev id) hread).1 () { h₁ with dev } ?_, ?_⟩
  · rw [run_bind_ok hsize]
    exact hloop
  · refine hchanged.inv hl hfit hinv hsound (fun id' _ _ => ?_) fun _ => ⟨hcontents, hpad⟩
    rw [hblocks]
    exact Finset.disjoint_empty_left _

/-! ## New inodes -/

/-- What `alloc_inode` does: it panics if no inode is free, else it sets the bit of a free one. -/
theorem allocInode_cases (hspec : AllocSpec alloc) (hmax : efs.inodeBitmap.maximum ≤ 2 ^ 32)
    (a : Arith) (dev : Store) :
    ((efs.inodeBitmap.free dev).card = 0 ∧ efs.allocInode alloc a dev = .error .unwrapNone) ∨
      ∃ id : UInt32, id.toNat ∈ efs.inodeBitmap.free dev ∧
        efs.allocInode alloc a dev = .ok (id, efs.inodeBitmap.setBit dev id.toNat) := by
  rcases hspec.cases efs.inodeBitmap dev with ⟨hcard, halloc⟩ | ⟨bit, hbit, halloc⟩
  · refine .inl ⟨hcard, ?_⟩
    rw [EasyFileSystem.allocInode, halloc]
  · obtain ⟨id, rfl⟩ := exists_toNat_eq (Nat.lt_of_lt_of_le (Bitmap.mem_free.mp hbit).1 hmax)
    refine .inr ⟨id, hbit, ?_⟩
    rw [EasyFileSystem.allocInode, halloc]
    exact bind_eq_ok.mpr ⟨id, a.asU32_eq_ok rfl, rfl⟩

/-- A free bit is one of an inode that has not been allocated. -/
theorem Inv.not_mem_of_free (hinv : Inv totalBlocks efs file s)
    (hfree : id.toNat ∈ efs.inodeBitmap.free s.dev) : id ∉ s.inodes := by
  intro hmem
  obtain ⟨hlt, hbit⟩ := Bitmap.mem_free.mp hfree
  rw [(hinv.bits _ hlt).mpr ⟨id, hmem, rfl⟩] at hbit
  cases hbit

/-- Allocating an inode changes a single bit of the inode bitmap, and no file that is there. -/
theorem Changed.of_alloc (hl : Laid totalBlocks inodeBitmapBlocks sizes efs) (hfit : Fits efs)
    (hinv : Inv totalBlocks efs file s) (hfree : id.toNat ∈ efs.inodeBitmap.free s.dev)
    (hdev : h.dev = efs.inodeBitmap.setBit s.dev id.toNat) (hblocks : h.blocks = ∅) :
    Changed totalBlocks inodeBitmapBlocks efs s id h (id :: s.inodes) := by
  have hlt := (Bitmap.mem_free.mp hfree).1
  have hnot := hinv.not_mem_of_free hfree
  have hblock := hl.inodeBitmap_blockOf_lt hlt
  have hstart := hl.dataBitmap_start
  have hadj := hfit.adjacent
  have hother : ∀ n, 1 + inodeBitmapBlocks.toNat ≤ n → h.dev n = s.dev n := by
    intro n hn
    rw [hdev]
    exact Bitmap.setBit_of_ne (by omega)
  obtain ⟨owned, hb, hmem⟩ := hinv.owned
  refine ⟨hlt, List.nodup_cons.mpr ⟨hnot, hinv.nodup⟩, fun id' => List.mem_cons,
    fun bit hbit => ?_, fun n hn _ => hother n hn, fun id' hid' _ b hbm => ?_,
    ⟨owned, ?_, fun b => ?_⟩, ?_⟩
  · rw [hdev, Bitmap.testBit_setBit, Bool.or_eq_true, decide_eq_true_eq, hinv.bits bit hbit,
      List.exists_mem_cons_iff, eq_comm]
  · have := hb.le_of_mem ((hmem b).mpr ⟨id', hid', hbm⟩)
    exact hother _ (by omega)
  · refine hb.write (fun bit hbit => ?_) (fun n hn _ => hother n (by omega))
    have := hfit.blockOf_lt hbit
    exact hother _ (by omega)
  · rw [hmem, hblocks]
    constructor
    · rintro ⟨id', hid', hbm⟩
      exact .inr ⟨id', hid', fun heq => hnot (heq ▸ hid'), hbm⟩
    · rintro (hbm | ⟨id', hid', -, hbm⟩)
      · exact absurd hbm (Finset.notMem_empty b)
      · exact ⟨id', hid', hbm⟩
  · rw [hdev]
    exact Bitmap.setBit_of_ne (by omega)

/-- **A new file** gets an inode nobody has, or there is none left and `alloc_inode` panics. -/
theorem Inv.create_cases (hspec : AllocSpec alloc)
    (hl : Laid totalBlocks inodeBitmapBlocks sizes efs) (hfit : Fits efs)
    (hmax : efs.inodeBitmap.maximum ≤ 2 ^ 32) (a : Arith) (hinv : Inv totalBlocks efs file s) :
    ((efs.inodeBitmap.free s.dev).card = 0 ∧ efs.allocInode alloc a s.dev = .error .unwrapNone) ∨
    ∃ id dev dev', id ∉ s.inodes ∧ efs.allocInode alloc a s.dev = .ok (id, dev) ∧
      (efs.inodeAt id).initFile dev = .ok () dev' ∧
      Inv totalBlocks efs (after file (.create id)) ⟨dev', id :: s.inodes⟩ := by
  rcases allocInode_cases hspec hmax a s.dev with hfull | ⟨id, hfree, halloc⟩
  · exact .inl hfull
  have hlt := (Bitmap.mem_free.mp hfree).1
  obtain ⟨hle, -, -⟩ := hl.inodeAt_slot hlt
  have hblock := hl.inodeBitmap_blockOf_lt hlt
  generalize hdev : efs.inodeBitmap.setBit s.dev id.toNat = dev at halloc
  have hread : ((efs.inodeAt id).readDiskInode dev fun di => di) =
      .ok (efs.diskInode s.dev id) := by
    rw [Inode.readDiskInode_congr (hdev ▸ Bitmap.setBit_of_ne (by omega))]
    exact hinv.valid id hlt
  have hinit := (Inode.modifyDiskInode_eq ⟨efs.diskInode s.dev id, dev⟩ hread
    (f := modify fun s => { s with inode := s.inode.initialise .file })).1 () _ rfl
  obtain ⟨-, hsound, hblocks, hcontents, hpad⟩ := Held.of_size_eq_zero
    (s := ⟨(efs.diskInode s.dev id).initialise .file, dev⟩) rfl
  have hchanged := Changed.of_alloc hl hfit hinv hfree hdev.symm hblocks
  refine .inr ⟨id, dev, _, hinv.not_mem_of_free hfree, halloc, hinit, ?_⟩
  refine hchanged.inv hl hfit hinv hsound (fun id' _ _ => ?_) fun _ => ⟨hcontents, hpad⟩
  rw [hblocks]
  exact Finset.disjoint_empty_left _

/-! ## Whole histories -/

/-- A formatted device has one file, the root directory, and it is empty. -/
theorem inv_init (hspec : AllocSpec alloc) (hl : Laid totalBlocks inodeBitmapBlocks sizes efs)
    (hI : 1 ≤ inodeBitmapBlocks.toNat)
    (h₀ : (system alloc dealloc grow clearSize write a efs totalBlocks inodeBitmapBlocks).init s) :
    Inv totalBlocks efs (fun _ => []) s := by
  obtain ⟨dev, inodes⟩ := s
  obtain ⟨rfl, dev₀, hcreate⟩ := h₀
  have hinit : (blockSystem alloc dealloc a efs totalBlocks inodeBitmapBlocks).init ⟨dev, []⟩ :=
    ⟨rfl, dev₀, hcreate⟩
  have hblocks := Blocks.inv_init hspec hl hI hinit
  obtain ⟨dev₂, hzero, hdev⟩ := create_dev hspec hl hI hcreate
  replace hdev : dev = (efs.inodeAt 0).put ⟨emptyDir, efs.inodeBitmap.setBit dev₂ 0⟩ := hdev
  have htotal := hl.total
  have hstart := hl.dataBitmap_start
  have hroot : (0 : UInt32).toNat < efs.inodeBitmap.maximum := by
    rw [hl.inodeBitmap_maximum]
    exact Nat.mul_pos (by decide) hI
  obtain ⟨hslot, -, -⟩ := hl.inodeAt_slot hroot
  have hbit₀ := hl.blockOf_zero
  have hread : ((efs.inodeAt 0).readDiskInode dev fun di => di) = .ok emptyDir :=
    hdev ▸ hl.readDiskInode_put hroot
  obtain ⟨-, hsound, hempty, hcontents, hpad⟩ := Held.of_size_eq_zero
    (s := efs.held dev 0) (congrArg (·.size.toNat) (EasyFileSystem.diskInode_eq hread))
  refine ⟨List.nodup_singleton _, ?_, fun bit hbit => ?_, fun id hid => ?_, ⟨?_, ?_, ?_⟩,
    ⟨[], hblocks, ?_⟩, fun a' => ?_⟩
  · simpa using hroot
  · have hblock := hl.inodeBitmap_blockOf_lt hbit
    have hput : dev (efs.inodeBitmap.blockOf bit) =
        efs.inodeBitmap.setBit dev₂ 0 (efs.inodeBitmap.blockOf bit) :=
      hdev ▸ Function.update_of_ne (by omega) ..
    rw [Bitmap.testBit_congr hput, Bitmap.testBit_setBit, Bitmap.testBit_of_zero
      (hzero _ hblock.1 (by omega))]
    simp [eq_comm]
  · by_cases heq : id = 0
    · rw [heq, EasyFileSystem.diskInode_eq hread]
      exact hread
    · obtain ⟨hle, hlt, hbound⟩ := hl.inodeAt_slot hid
      have hzero' : efs.inodeBitmap.setBit dev₂ 0 (efs.inodeAt id).blockId.toNat = fun _ => 0 := by
        rw [Bitmap.setBit_of_ne (by omega)]
        exact hzero _ (by omega) (by omega)
      have hread' : ((efs.inodeAt id).readDiskInode dev fun di => di) =
          .ok ⟨0, fun _ => 0, 0, 0, .file⟩ := by
        rw [hdev, hl.readDiskInode_put_of_ne hroot hid heq, Inode.readDiskInode, readBlock,
          checkBounds, if_pos hbound, valueAt]
        dsimp only
        rw [hzero', DiskInode.codec_read_zero]
        rfl
      rw [EasyFileSystem.diskInode_eq hread']
      exact hread'
  · simpa using hsound
  · simp
  · simp [hcontents, hpad]
  · simp [hempty]
  · obtain ⟨_, hcreate', hformat⟩ := create_eq hspec hl hI a dev₀
    cases hcreate.symm.trans hcreate'
    exact hformat.openEfs_eq hl a'

/-- **A step** does to the files what the event says. -/
theorem Step.inv (hspec : AllocSpec alloc) (hdspec : DeallocSpec dealloc) (hgrow : GrowSpec grow)
    (hclear : ClearSpec clearSize) (hwrite : WriteSpec write)
    (hl : Laid totalBlocks inodeBitmapBlocks sizes efs) (hfit : Fits efs)
    (hmax : efs.inodeBitmap.maximum ≤ 2 ^ 32) {e : Event} (hinv : Inv totalBlocks efs file s)
    (hs : Step alloc dealloc grow clearSize write a efs s e s') :
    Inv totalBlocks efs (after file e) s' := by
  cases hs with
  | create halloc hinit =>
    rcases hinv.create_cases hspec hl hfit hmax a with ⟨-, herr⟩ | ⟨_, _, _, -, halloc', hinit', h⟩
    · rw [halloc] at herr
      cases herr
    · cases halloc.symm.trans halloc'
      cases hinit.symm.trans hinit'
      exact h
  | write hid hend hok =>
    rcases hinv.writeAt_cases hspec hgrow hwrite hl hfit a hid hend with
      ⟨-, _, _, herr⟩ | ⟨-, _, hok', h⟩
    · rw [hok] at herr
      cases herr
    · cases hok.symm.trans hok'
      exact h
  | clear hid hok =>
    obtain ⟨_, hok', h⟩ := hinv.clear_eq hdspec hclear hl hfit a hid
    cases hok.symm.trans hok'
    exact h

/-- The invariant of every history: each inode that was allocated is a sound file with the bytes
of its events. -/
theorem inv_of_run (hspec : AllocSpec alloc) (hdspec : DeallocSpec dealloc)
    (hgrow : GrowSpec grow) (hclear : ClearSpec clearSize) (hwrite : WriteSpec write)
    (hl : Laid totalBlocks inodeBitmapBlocks sizes efs) (hI : 1 ≤ inodeBitmapBlocks.toNat)
    (hI' : inodeBitmapBlocks.toNat ≤ 2 ^ 20) (hroom : totalBlocks.toNat + 4096 ≤ 2 ^ 32)
    {tr : List Event}
    (h₀ : (system alloc dealloc grow clearSize write a efs totalBlocks inodeBitmapBlocks).init s)
    (hrun :
      (system alloc dealloc grow clearSize write a efs totalBlocks inodeBitmapBlocks).Run s tr s') :
    Inv totalBlocks efs (files tr) s' := by
  refine hrun.history (I := fun tr s => Inv totalBlocks efs (files tr) s)
    (inv_init hspec hl hI h₀) fun tr t e u hinv hs => ?_
  rw [files, List.foldl_append]
  exact Step.inv hspec hdspec hgrow hclear hwrite hl (Blocks.fits_of_laid hl hroom)
    (hl.inodeBitmap_maximum_le hI') hinv hs

/-! ## Counting -/

/-- Every block is free or in the tree of one file. -/
theorem Inv.card_free_add (hinv : Inv totalBlocks efs file s) :
    (efs.dataBitmap.free s.dev).card + ∑ id ∈ s.inodes.toFinset, (efs.held s.dev id).nodes.card =
      efs.dataBitmap.maximum := by
  obtain ⟨owned, hb, hmem⟩ := hinv.owned
  have hunion : owned.toFinset =
      s.inodes.toFinset.biUnion fun id => (efs.held s.dev id).blocks := by
    ext b
    rw [List.mem_toFinset, hmem, Finset.mem_biUnion]
    simp only [List.mem_toFinset]
  have hcard : owned.length = ∑ id ∈ s.inodes.toFinset, (efs.held s.dev id).nodes.card := by
    rw [← List.toFinset_card_of_nodup hb.nodup, hunion, Finset.card_biUnion]
    · refine Finset.sum_congr rfl fun id hid => Finset.card_image_of_injOn ?_
      exact (hinv.apart.sound id (List.mem_toFinset.mp hid)).inj
    · intro id hid id' hid' hne
      exact hinv.apart.disjoint id (List.mem_toFinset.mp hid) id' (List.mem_toFinset.mp hid') hne
  rw [← hcard]
  exact Bitmap.card_free_add hb.nodup hb.range hb.bits

/-- Every inode is allocated or free: the free bits and the files are as many as the bitmap has. -/
theorem Inv.card_free_inodes (hinv : Inv totalBlocks efs file s) :
    (efs.inodeBitmap.free s.dev).card + s.inodes.length = efs.inodeBitmap.maximum :=
  @Bitmap.card_free_add _ _ _ 0 hinv.nodup (fun id hid => ⟨id.toNat, hinv.lt id hid, rfl⟩) hinv.bits

/-- If all blocks of the data bitmap are on the device, so are those of the files. -/
theorem Inv.real (hinv : Inv totalBlocks efs file s)
    (hwhole : efs.dataAreaStartBlock.toNat + efs.dataBitmap.maximum ≤ totalBlocks.toNat)
    (hid : id ∈ s.inodes) : (efs.held s.dev id).Real totalBlocks := by
  intro b hbm
  obtain ⟨owned, hb, hmem⟩ := hinv.owned
  obtain ⟨bit, hbit, heq⟩ := hb.range b ((hmem b).mpr ⟨id, hid, hbm⟩)
  omega

/-- **`Inode::read_at`** returns the bytes of the file, from the offset on and as many as fit. -/
theorem Inv.readAt_eq {read : Nat → Nat → Held → List UInt8} (hread : ReadSpec read)
    (hinv : Inv totalBlocks efs file s) (hid : id ∈ s.inodes)
    (hreal : (efs.held s.dev id).Real totalBlocks) (offset len : Nat) :
    (efs.inodeAt id).readAt read offset len s.dev =
      .ok (((file id).drop offset).take len) := by
  rw [← (hinv.apart.content id hid hreal).1, Inode.readAt,
    Inode.readDiskInode_eq _ (hinv.valid id (hinv.lt id hid))]
  exact congrArg Except.ok (hread _ offset len (hinv.apart.sound id hid))

/-- What callers see of a file system with the files `file`. -/
structure Serves (alloc : Bitmap → Store → Option Nat × Store)
    (dealloc : Bitmap → Store → Nat → Except Panic Store)
    (grow : UInt32 → List UInt32 → EStateM Panic Held Unit)
    (clearSize : EStateM Panic Held (List UInt32))
    (write : Nat → List UInt8 → EStateM Panic Held Nat) (read : Nat → Nat → Held → List UInt8)
    (a : Arith) (totalBlocks : UInt32) (efs : EasyFileSystem) (file : UInt32 → List UInt8)
    (s : Files) : Prop where
  size : ∀ id ∈ s.inodes, (efs.held s.dev id).Real totalBlocks →
    ((efs.inodeAt id).size s.dev).map UInt32.toNat = .ok (file id).length
  read : ∀ id ∈ s.inodes, (efs.held s.dev id).Real totalBlocks → ∀ offset len,
    (efs.inodeAt id).readAt read offset len s.dev = .ok (((file id).drop offset).take len)
  disjoint : ∀ id ∈ s.inodes, ∀ id' ∈ s.inodes, id ≠ id' →
    Disjoint (efs.held s.dev id).blocks (efs.held s.dev id').blocks
  /-- Every block is free or in the tree of one file. -/
  account : (efs.dataBitmap.free s.dev).card +
    ∑ id ∈ s.inodes.toFinset, (efs.held s.dev id).nodes.card = efs.dataBitmap.maximum
  /-- A write panics if there are too few blocks. -/
  full : ∀ id ∈ s.inodes, ∀ offset buf, offset + buf.length ≤ indirect2Bound * blockSz →
    (efs.dataBitmap.free s.dev).card + (efs.held s.dev id).nodes.card <
      (tree (dataBlocks (offset + buf.length))).card →
    ∃ e dev, (efs.inodeAt id).writeAt alloc grow write a efs offset buf s.dev = .error e dev
  /-- If all blocks of the data bitmap are on the device, so are those of the files, and a write
  succeeds if there are enough. -/
  room : efs.dataAreaStartBlock.toNat + efs.dataBitmap.maximum ≤ totalBlocks.toNat →
    ∀ id ∈ s.inodes, (efs.held s.dev id).Real totalBlocks ∧
      ∀ offset buf, offset + buf.length ≤ indirect2Bound * blockSz →
        (tree (dataBlocks (offset + buf.length))).card ≤
          (efs.dataBitmap.free s.dev).card + (efs.held s.dev id).nodes.card →
        ∃ dev, (efs.inodeAt id).writeAt alloc grow write a efs offset buf s.dev =
          .ok buf.length dev
  clear : ∀ id ∈ s.inodes,
    ∃ dev, (efs.inodeAt id).clear dealloc clearSize a efs s.dev = .ok () dev
  /-- The device can be mounted again, in every build. -/
  mount : ∀ a', EasyFileSystem.openEfs a' s.dev = .ok efs
  /-- There are as many files as bits in the inode bitmap. -/
  create : (∃ id dev dev', efs.allocInode alloc a s.dev = .ok (id, dev) ∧
      (efs.inodeAt id).initFile dev = .ok () dev') ↔ s.inodes.length < efs.inodeBitmap.maximum

section

variable {read : Nat → Nat → Held → List UInt8}

/-- In a state that keeps the invariant every operation within the bounds of the device succeeds
or says which space is lacking. -/
theorem Inv.serves (hspec : AllocSpec alloc) (hdspec : DeallocSpec dealloc)
    (hgrow : GrowSpec grow) (hclear : ClearSpec clearSize) (hwrite : WriteSpec write)
    (hread : ReadSpec read) (hl : Laid totalBlocks inodeBitmapBlocks sizes efs) (hfit : Fits efs)
    (hmax : efs.inodeBitmap.maximum ≤ 2 ^ 32) (a : Arith) (hinv : Inv totalBlocks efs file s) :
    Serves alloc dealloc grow clearSize write read a totalBlocks efs file s := by
  refine ⟨fun id hid hreal => ?_, fun id hid => hinv.readAt_eq hread hid, hinv.apart.disjoint,
    hinv.card_free_add, fun id hid offset buf hend hfew => ?_, fun hwhole id hid =>
      ⟨hinv.real hwhole hid, fun offset buf hend henough => ?_⟩, fun id hid => ?_, hinv.mount, ?_,
    fun hlt => ?_⟩
  · rw [← (hinv.apart.content id hid hreal).1, Held.length_contents, Inode.size,
      Inode.readDiskInode_eq _ (hinv.valid id (hinv.lt id hid))]
    rfl
  · rcases hinv.writeAt_cases hspec hgrow hwrite hl hfit a hid hend with ⟨-, herr⟩ | ⟨hle, -⟩
    · exact herr
    · omega
  · rcases hinv.writeAt_cases hspec hgrow hwrite hl hfit a hid hend with ⟨hlt, -⟩ | ⟨-, dev, hok, -⟩
    · omega
    · exact ⟨dev, hok⟩
  · obtain ⟨dev, hok, -⟩ := hinv.clear_eq hdspec hclear hl hfit a hid
    exact ⟨dev, hok⟩
  · rintro ⟨id, dev, dev', halloc, -⟩
    have hcard := hinv.card_free_inodes
    rcases allocInode_cases hspec hmax a s.dev with ⟨-, herr⟩ | ⟨id, hfree, -⟩
    · rw [halloc] at herr
      cases herr
    · have := Finset.card_pos.mpr ⟨_, hfree⟩
      omega
  · have hcard := hinv.card_free_inodes
    rcases hinv.create_cases hspec hl hfit hmax a with
      ⟨hzero, -⟩ | ⟨id, dev, dev', -, halloc, hinit, -⟩
    · omega
    · exact ⟨id, dev, dev', halloc, hinit⟩

/-- **The file system is a map of byte strings.** After any history of a formatted device, what is
read from a file is what was written last at every place, zeros where nothing was written, and no
two files share a block; `clear` always succeeds and gives all blocks back; a write succeeds if and
only if there are blocks for it. And the device can be mounted again as it is. -/
theorem run_files (hspec : AllocSpec alloc) (hdspec : DeallocSpec dealloc)
    (hgrow : GrowSpec grow) (hclear : ClearSpec clearSize) (hwrite : WriteSpec write)
    (hread : ReadSpec read)
    (hlayout : layout .exact totalBlocks inodeBitmapBlocks = .ok (sizes, efs))
    (hI : 1 ≤ inodeBitmapBlocks.toNat) (hI' : inodeBitmapBlocks.toNat ≤ 2 ^ 20)
    (hroom : totalBlocks.toNat + 4096 ≤ 2 ^ 32) {tr : List Event}
    (h₀ : (system alloc dealloc grow clearSize write a efs totalBlocks inodeBitmapBlocks).init s)
    (hrun :
      (system alloc dealloc grow clearSize write a efs totalBlocks inodeBitmapBlocks).Run s tr s') :
    Serves alloc dealloc grow clearSize write read a totalBlocks efs (files tr) s' := by
  have hl := laid_of_layout hlayout
  have hinv := inv_of_run hspec hdspec hgrow hclear hwrite hl hI hI' hroom h₀ hrun
  exact hinv.serves hspec hdspec hgrow hclear hwrite hread hl (Blocks.fits_of_laid hl hroom)
    (hl.inodeBitmap_maximum_le hI') a

end

/-- The device of the examples below, with as many data blocks as bits. -/
def smallEfs : EasyFileSystem := ⟨⟨1, 1⟩, ⟨1026, 1⟩, 2, 1027⟩

/-- Files on that device, with exercises that do what their comments say. -/
def smallFiles : System Files Event :=
  system Bitmap.allocFirst Bitmap.deallocBit growTree clearTree writeBytes .debug smallEfs 5123 1

/-- `create` lays out the small device without an overflow, with its 4096 data blocks. -/
theorem layout_small : layout .exact 5123 1 = .ok (⟨1024, 1, 4096⟩, smallEfs) := by decide

/-- A file is created, and one byte is written behind its end. -/
theorem exists_run_small : ∃ s s' id, smallFiles.init s ∧
    smallFiles.Run s [.create id, .write id 2 [7]] s' ∧ id ∈ s'.inodes ∧
      (smallEfs.held s'.dev id).Real 5123 := by
  have hl := laid_of_layout layout_small
  have hspec := Bitmap.allocFirst_spec
  have hfit := Blocks.fits_of_laid hl (by decide)
  have hwhole : smallEfs.dataAreaStartBlock.toNat + smallEfs.dataBitmap.maximum ≤
      (5123 : UInt32).toNat := by decide
  have hbits : smallEfs.inodeBitmap.maximum = 4096 ∧ smallEfs.dataBitmap.maximum = 4096 := by decide
  obtain ⟨dev, hcreate, -⟩ := create_eq hspec hl (by decide) .debug fun _ _ => 0
  have h₀ : smallFiles.init ⟨dev, [0]⟩ := ⟨rfl, _, hcreate⟩
  have hinv := inv_init hspec hl (by decide) h₀
  have hinodes := hinv.card_free_inodes
  rw [hbits.1, List.length_singleton] at hinodes
  rcases hinv.create_cases hspec hl hfit (by decide) .debug with
    ⟨hzero, -⟩ | ⟨id, dev₁, dev₂, hnew, halloc, hinit, hinv'⟩
  · omega
  have hid : id ∈ [id, 0] := List.mem_cons_self
  -- both files are empty, so all blocks are free
  have hnodes : ∀ id' ∈ [id, 0].toFinset, (smallEfs.held dev₂ id').nodes.card = 0 := by
    intro id' hid'
    have hmem := List.mem_toFinset.mp hid'
    obtain ⟨hbytes, -⟩ := hinv'.apart.content id' hmem (hinv'.real hwhole hmem)
    have hempty : after (fun _ => []) (.create id) id' = [] := by
      rw [after, Function.update_apply, ite_self]
    have hsize : (smallEfs.held dev₂ id').size = 0 := by
      rw [← Held.length_contents, hbytes, hempty, List.length_nil]
    rw [(Held.of_size_eq_zero hsize).1, Finset.card_empty]
  have hfree := hinv'.card_free_add
  rw [Finset.sum_eq_zero hnodes, hbits.2] at hfree
  have hone : (tree (dataBlocks (2 + [(7 : UInt8)].length))).card = 1 := by decide
  have hend : 2 + [(7 : UInt8)].length ≤ indirect2Bound * blockSz := by decide
  rcases hinv'.writeAt_cases hspec growTree_spec writeBytes_spec hl hfit .debug hid hend with
    ⟨hfew, -⟩ | ⟨-, dev₃, hok, hinv''⟩
  · omega
  have hrun : smallFiles.Run ⟨dev, [0]⟩ [.create id] ⟨dev₂, [id, 0]⟩ :=
    (System.Run.nil _).snoc (Step.create halloc hinit)
  exact ⟨_, _, id, h₀, hrun.snoc (Step.write hid hend hok), hid, hinv''.real hwhole hid⟩

/-- The gap before the byte is filled with zeros: two of them and the byte are read back from a
new file. -/
theorem run_files_one : ∃ s s' id, smallFiles.init s ∧
    smallFiles.Run s [.create id, .write id 2 [7]] s' ∧
      (smallEfs.inodeAt id).readAt readBytes 0 512 s'.dev = .ok [0, 0, 7] := by
  obtain ⟨s, s', id, h₀, hrun, hid, hreal⟩ := exists_run_small
  have hserves := run_files Bitmap.allocFirst_spec Bitmap.deallocBit_spec growTree_spec
    clearTree_spec writeBytes_spec readBytes_spec layout_small (by decide) (by decide) (by decide)
    h₀ hrun
  refine ⟨s, s', id, h₀, hrun, ?_⟩
  rw [hserves.read id hid hreal 0 512]
  have hfile : files [.create id, .write id 2 [7]] id = [0, 0, 7] := by
    simp [files, after, Overwrite.overwrite]
  rw [hfile]
  rfl

end Files

end TinyOS.EasyFs
