import TinyOS.EasyFs.Mount
import TinyOS.EasyFs.InodeTree

/-!
# Growing a file

`Inode::increase_size` and `Inode::write_at` (`easy-fs/src/vfs.rs`). `DiskInode::increase_size` and
`DiskInode::write_at`, which they call, are exercises of the course and parameters here (`grow` and
`write`), as `Bitmap::alloc` is. A panic does not undo what was done before it, so a computation
has a device after it also when it fails.
-/

namespace TinyOS.EasyFs

/-- What the closure of `modify_disk_inode` works on: the inode in its cached block, and the
device. -/
structure Held where
  inode : DiskInode
  dev : Store

/-- A computation that needs no device, as one that leaves the device as it is. -/
def ofExcept {α : Type} (x : Except Panic α) : EStateM Panic Held α :=
  match x with
  | .ok v => pure v
  | .error e => throw e

section

variable (alloc : Bitmap → Store → Option Nat × Store)
  (grow : UInt32 → List UInt32 → EStateM Panic Held Unit)
  (write : Nat → List UInt8 → EStateM Panic Held Nat)

namespace EasyFileSystem

/-- The number `alloc_data` gives to the block of a bit. -/
def blockOfBit (a : Arith) (efs : EasyFileSystem) (bit : Nat) : Except Panic UInt32 := do
  a.add (← a.asU32 bit) efs.dataAreaStartBlock

/-- `alloc_data` with the device it leaves, also where it panics. -/
def allocDataHeld (a : Arith) (efs : EasyFileSystem) : EStateM Panic Held UInt32 := fun s =>
  match alloc efs.dataBitmap s.dev with
  | (some bit, dev) => ofExcept (efs.blockOfBit a bit) { s with dev }
  | (none, dev) => .error .unwrapNone { s with dev }

/-- The loop `for _ in 0..n { v.push(fs.alloc_data()); }`, which stops at the first `alloc_data`
that panics. -/
def allocLoop (a : Arith) (efs : EasyFileSystem) :
    Nat → List UInt32 → EStateM Panic Held (List UInt32)
  | 0, v => pure v
  | n + 1, v => do
    let block ← efs.allocDataHeld alloc a
    allocLoop a efs n (v ++ [block])

end EasyFileSystem

namespace Inode

/-- `Inode::increase_size`: the blocks that are missing are allocated, and
`DiskInode::increase_size` gets them. -/
def increaseSize (a : Arith) (efs : EasyFileSystem) (newSize : UInt32) :
    EStateM Panic Held Unit := do
  let diskInode := (← get).inode
  if newSize ≤ diskInode.size then return
  let blocksNeeded ← ofExcept (diskInode.blocksNumNeeded a newSize)
  let v ← efs.allocLoop alloc a blocksNeeded.toNat []
  grow newSize v

/-- The device with the inode back in its block, at the offset of its slot; the rest of the
block is as the closure left it. -/
def put (inode : Inode) (s : Held) : Store :=
  Function.update s.dev inode.blockId.toNat
    (DiskInode.codec.write (s.dev inode.blockId.toNat) inode.blockOffset s.inode)

/-- `modify_disk_inode`. The closure changes the inode where it is, so its changes stay when it
panics. -/
def modifyDiskInode {V : Type} (inode : Inode) (f : EStateM Panic Held V) :
    EStateM Panic Store V := fun dev =>
  match inode.readDiskInode dev id with
  | .error e => .error e dev
  | .ok diskInode =>
    match f ⟨diskInode, dev⟩ with
    | .ok v s => .ok v (inode.put s)
    | .error e s => .error e (inode.put s)

/-- The size that `write_at` asks for: `(offset + buf.len()) as u32`. -/
def writeEnd (a : Arith) (offset len : Nat) : Except Panic UInt32 := do
  a.asU32 (← a.addUsize offset len)

/-- `Inode::write_at`: the file is enlarged if it has to be, and then written. With a coherent
cache `block_cache_sync_all` changes nothing. -/
def writeAt (a : Arith) (efs : EasyFileSystem) (inode : Inode) (offset : Nat) (buf : List UInt8) :
    EStateM Panic Store Nat :=
  inode.modifyDiskInode do
    increaseSize alloc grow a efs (← ofExcept (writeEnd a offset buf.length))
    write offset buf

end Inode

end

/-! ## Running -/

section

variable {σ α β : Type} {x : EStateM Panic σ α} {f : α → EStateM Panic σ β} {s s' : σ}

/-- A computation that succeeds goes on with the rest, in the state it leaves. -/
theorem run_bind_ok {v : α} (h : x s = .ok v s') : (x >>= f) s = f v s' := by
  show EStateM.bind x f s = _
  rw [EStateM.bind, h]

/-- Reading the state goes on with the rest, in the same state. -/
theorem run_get_bind {f : σ → EStateM Panic σ β} :
    ((get : EStateM Panic σ σ) >>= f) s = f s s := rfl

/-- A computation that panics skips the rest and keeps the state it has reached. -/
theorem run_bind_error {e : Panic} (h : x s = .error e s') : (x >>= f) s = .error e s' := by
  show EStateM.bind x f s = _
  rw [EStateM.bind, h]

/-- A value computed without the device leaves the state as it is. -/
theorem run_ofExcept_ok {y : Except Panic α} {v : α} (h : y = .ok v) (s : Held) :
    ofExcept y s = .ok v s := by
  rw [h]
  rfl

end

/-! ## Allocating in a loop -/

section

variable {alloc : Bitmap → Store → Option Nat × Store} (a : Arith) (efs : EasyFileSystem)

/-- Where `alloc_data` returns, it is the computation that forgets the device on a panic. -/
theorem allocDataHeld_eq_ok_iff {s : Held} {block : UInt32} {dev : Store} :
    efs.allocDataHeld alloc a s = .ok block { s with dev } ↔
      efs.allocData alloc a s.dev = .ok (block, dev) := by
  rw [EasyFileSystem.allocDataHeld, EasyFileSystem.allocData]
  rcases alloc efs.dataBitmap s.dev with ⟨_ | bit, dev'⟩
  · constructor <;> intro h <;> cases h
  · have hrest : (do return (← a.add (← a.asU32 bit) efs.dataAreaStartBlock, dev')) =
        (efs.blockOfBit a bit).map (·, dev') := by
      rw [EasyFileSystem.blockOfBit]
      cases a.asU32 bit <;> rfl
    dsimp only
    rw [hrest]
    cases efs.blockOfBit a bit with
    | error e => constructor <;> intro h <;> cases h
    | ok b =>
      constructor
      · intro h
        cases h
        rfl
      · intro h
        cases h
        rfl

/-- **What `alloc_data` does.** If no bit is free, it panics and changes nothing. Else a bit is set,
also if the number of the block then overflows. -/
theorem allocDataHeld_cases (spec : AllocSpec alloc) (s : Held) :
    ((efs.dataBitmap.free s.dev).card = 0 ∧
      efs.allocDataHeld alloc a s = .error .unwrapNone s) ∨
    ∃ bit s', bit < efs.dataBitmap.maximum ∧
      (efs.dataBitmap.free s'.dev).card + 1 = (efs.dataBitmap.free s.dev).card ∧
      efs.allocDataHeld alloc a s = ofExcept (efs.blockOfBit a bit) s' := by
  rcases spec.cases efs.dataBitmap s.dev with ⟨hfree, halloc⟩ | ⟨bit, hbit, halloc⟩
  · refine .inl ⟨hfree, ?_⟩
    rw [EasyFileSystem.allocDataHeld, halloc]
  · refine .inr ⟨bit, { s with dev := efs.dataBitmap.setBit s.dev bit },
      (Bitmap.mem_free.mp hbit).1, Bitmap.card_free_setBit hbit, ?_⟩
    rw [EasyFileSystem.allocDataHeld, halloc]

/-- The loop returns if there are enough free bits and the blocks have numbers. -/
theorem allocLoop_eq_ok (spec : AllocSpec alloc)
    (hstart : efs.dataAreaStartBlock.toNat + efs.dataBitmap.maximum ≤ 2 ^ 32) {n : Nat} {s : Held}
    (hn : n ≤ (efs.dataBitmap.free s.dev).card) (v : List UInt32) :
    ∃ v' s', efs.allocLoop alloc a n v s = .ok v' s' := by
  induction n generalizing s v with
  | zero => exact ⟨v, s, rfl⟩
  | succ n ih =>
    rcases allocDataHeld_cases a efs spec s with ⟨hfree, -⟩ | ⟨bit, s', hlt, hcard, hrun⟩
    · omega
    · obtain ⟨x, hx⟩ := exists_toNat_eq (show bit < 2 ^ 32 by omega)
      obtain ⟨block, hblock⟩ := exists_toNat_eq
        (show x.toNat + efs.dataAreaStartBlock.toNat < 2 ^ 32 by omega)
      have hok : efs.blockOfBit a bit = .ok block :=
        bind_eq_ok.mpr ⟨x, a.asU32_eq_ok hx, a.add_eq_ok hblock⟩
      rw [EasyFileSystem.allocLoop, run_bind_ok (hrun.trans (run_ofExcept_ok hok s'))]
      exact ih (by omega) _

/-- **The loop fails if there are too few free bits.** It then has changed nothing only if there
were none at all. -/
theorem allocLoop_eq_error (spec : AllocSpec alloc) {n : Nat} {s : Held}
    (hn : (efs.dataBitmap.free s.dev).card < n) (v : List UInt32) :
    ∃ e s', efs.allocLoop alloc a n v s = .error e s' ∧
      (((efs.dataBitmap.free s.dev).card = 0 ∧ s' = s) ∨
        (efs.dataBitmap.free s'.dev).card < (efs.dataBitmap.free s.dev).card) := by
  induction n generalizing s v with
  | zero => omega
  | succ n ih =>
    rcases allocDataHeld_cases a efs spec s with ⟨hfree, hrun⟩ | ⟨bit, s₁, -, hcard, hrun⟩
    · exact ⟨_, s, run_bind_error hrun, .inl ⟨hfree, rfl⟩⟩
    · cases hblock : efs.blockOfBit a bit with
      | error e =>
        rw [hblock] at hrun
        exact ⟨e, s₁, run_bind_error hrun, .inr (by omega)⟩
      | ok block =>
        rw [hblock] at hrun
        have hfew : (efs.dataBitmap.free s₁.dev).card < n := by omega
        obtain ⟨e, s', herr, hs'⟩ := ih hfew (v ++ [block])
        refine ⟨e, s', (run_bind_ok hrun).trans herr, .inr ?_⟩
        rcases hs' with ⟨-, rfl⟩ | hlt <;> omega

/-! ## All or nothing -/

variable {grow : UInt32 → List UInt32 → EStateM Panic Held Unit}

/-- `increase_size` of a larger size is the loop and then `DiskInode::increase_size`. -/
theorem increaseSize_eq {newSize n : UInt32} {s : Held} (hlt : s.inode.size < newSize)
    (hn : s.inode.blocksNumNeeded a newSize = .ok n) :
    Inode.increaseSize alloc grow a efs newSize s =
      (efs.allocLoop alloc a n.toNat [] >>= fun v => grow newSize v) s := by
  have hle : ¬ newSize ≤ s.inode.size := UInt32.not_le.mpr hlt
  rw [Inode.increaseSize, run_get_bind, if_neg hle]
  exact run_bind_ok (run_ofExcept_ok hn s)

/-- `increase_size` of a size the file has anyway does nothing. -/
theorem increaseSize_of_le {newSize : UInt32} {s : Held} (hle : newSize ≤ s.inode.size) :
    Inode.increaseSize alloc grow a efs newSize s = .ok () s := by
  rw [Inode.increaseSize, run_get_bind, if_pos hle]
  rfl

/-- No block is needed for the size the file has. -/
theorem size_lt_of_blocksNumNeeded {di : DiskInode} {newSize n : UInt32}
    (h : di.blocksNumNeeded a newSize = .ok n) (hn : 0 < n.toNat) : di.size < newSize := by
  rw [DiskInode.blocksNumNeeded] at h
  split at h
  · rename_i hle
    refine UInt32.lt_of_le_of_ne hle fun heq => ?_
    rw [← heq] at h
    obtain ⟨new, hnew, old, hold, hsub⟩ : ∃ new, _ ∧ ∃ old, _ ∧ _ := by
      simpa only [bind_eq_ok] using h
    obtain rfl := Except.ok.inj (hnew.symm.trans hold)
    have hzero : a.sub new new = .ok 0 := a.sub_eq_ok (Nat.zero_add _).symm
    obtain rfl := Except.ok.inj (hzero.symm.trans hsub)
    exact absurd hn (Nat.lt_irrefl 0)
  · cases h

/-- `increase_size` fails if there are too few free bits, and sets those there are. -/
theorem increaseSize_eq_error (spec : AllocSpec alloc) {newSize n : UInt32} {s : Held}
    (hn : s.inode.blocksNumNeeded a newSize = .ok n)
    (hfew : (efs.dataBitmap.free s.dev).card < n.toNat) :
    ∃ e s', Inode.increaseSize alloc grow a efs newSize s = .error e s' ∧
      (((efs.dataBitmap.free s.dev).card = 0 ∧ s' = s) ∨
        (efs.dataBitmap.free s'.dev).card < (efs.dataBitmap.free s.dev).card) := by
  have hlt := size_lt_of_blocksNumNeeded a hn (Nat.zero_lt_of_lt hfew)
  obtain ⟨e, s', herr, hs'⟩ := allocLoop_eq_error a efs spec hfew []
  exact ⟨e, s', (increaseSize_eq a efs hlt hn).trans (run_bind_error herr), hs'⟩

/-- **Growing a file on a nearly full disk.** If fewer data bits are free than blocks are needed,
`increase_size` fails with the inode and the device as they were if and only if no bit is free at
all. -/
theorem increaseSize_unchanged_iff (spec : AllocSpec alloc) {newSize n : UInt32} {s : Held}
    (hn : s.inode.blocksNumNeeded a newSize = .ok n)
    (hfew : (efs.dataBitmap.free s.dev).card < n.toNat) :
    (∃ e, Inode.increaseSize alloc grow a efs newSize s = .error e s) ↔
      (efs.dataBitmap.free s.dev).card = 0 := by
  obtain ⟨e, s', herr, hs'⟩ := @increaseSize_eq_error alloc a efs grow spec newSize n s hn hfew
  rw [herr]
  constructor
  · rintro ⟨_, heq⟩
    cases heq
    rcases hs' with ⟨hzero, -⟩ | hlt
    · exact hzero
    · exact absurd hlt (Nat.lt_irrefl _)
  · intro hzero
    rcases hs' with ⟨-, rfl⟩ | hlt
    · exact ⟨e, rfl⟩
    · omega

end

/-- `DiskInode::increase_size` as the course hands it out: it panics before it does anything. -/
def growTodo (_ : UInt32) (_ : List UInt32) : EStateM Panic Held Unit :=
  throw (.assertion "not implemented: TODO: implement DiskInode::increase_size")

/-- The file system on a formatted device with 4096 data blocks. -/
def smallDisk : EasyFileSystem := ⟨⟨1, 1⟩, ⟨1026, 1⟩, 2, 1027⟩

example : layout .debug 5123 1 = .ok (⟨1024, 1, 4096⟩, smallDisk) := by decide

/-- An empty file on that device, with the first `n` data bits set. -/
def emptyFile (n : Nat) : Held where
  inode := ⟨0, fun _ => 0, 0, 0, .file⟩
  dev := Function.update (fun _ _ => 0) 1026 (smallDisk.dataBitmap.filled n 1026)

/-- With the first `n` data bits set, the small disk has the rest of its 4096 bits free. -/
theorem card_free_emptyFile (n : Nat) :
    (smallDisk.dataBitmap.free (emptyFile n).dev).card = 4096 - n := by
  have hfree : smallDisk.dataBitmap.free (emptyFile n).dev = Finset.Ico n 4096 := by
    ext bit
    rw [Bitmap.mem_free, Finset.mem_Ico, and_comm]
    refine and_congr_left fun hlt => ?_
    -- all the bits are in block 1026
    have hblock : smallDisk.dataBitmap.blockOf bit = 1026 :=
      congrArg (1026 + ·) (Nat.div_eq_of_lt hlt)
    have hdev : (emptyFile n).dev 1026 = smallDisk.dataBitmap.filled n 1026 := by
      simp only [emptyFile, Function.update_self]
    rw [Bitmap.testBit, hblock, hdev, ← hblock, ← Bitmap.testBit, Bitmap.testBit_filled,
      decide_eq_false_iff_not, Nat.not_lt]
  rw [hfree, Nat.card_Ico]

/-- On a full disk nothing changes, since the first `alloc_data` panics before it sets a bit. -/
theorem increaseSize_unchanged_full :
    ∃ e, Inode.increaseSize Bitmap.allocFirst growTodo .debug smallDisk 1024
      (emptyFile 4096) = .error e (emptyFile 4096) :=
  (@increaseSize_unchanged_iff Bitmap.allocFirst .debug smallDisk growTodo
    Bitmap.allocFirst_spec 1024 2 (emptyFile 4096) (by decide)
    (by rw [card_free_emptyFile]; decide)).mpr (card_free_emptyFile 4096)

/-- A file that needs two blocks where one is left: the bit of that one is set, and the file stays
empty. -/
theorem increaseSize_leak :
    (emptyFile 4095).inode.blocksNumNeeded .debug 1024 = .ok 2 ∧
      (smallDisk.dataBitmap.free (emptyFile 4095).dev).card = 1 ∧
      ¬ ∃ e, Inode.increaseSize Bitmap.allocFirst growTodo .debug smallDisk 1024
        (emptyFile 4095) = .error e (emptyFile 4095) := by
  have hn : (emptyFile 4095).inode.blocksNumNeeded .debug 1024 = .ok 2 := by decide
  refine ⟨hn, card_free_emptyFile 4095, ?_⟩
  rintro ⟨e, heq⟩
  obtain ⟨_, s', herr, hs'⟩ := @increaseSize_eq_error Bitmap.allocFirst .debug smallDisk
    growTodo Bitmap.allocFirst_spec 1024 2 (emptyFile 4095) hn (by rw [card_free_emptyFile]; decide)
  cases heq.symm.trans herr
  rw [card_free_emptyFile] at hs'
  rcases hs' with ⟨hzero, -⟩ | hlt
  · exact absurd hzero (by decide)
  · exact absurd hlt (Nat.lt_irrefl _)

/-! ## The end of a write -/

/-- The write is refused with the device as it was: `write_at` panics, or none of the bytes there
are is written. -/
def Refused (buf : List UInt8) (dev : Store) (r : EStateM.Result Panic Store Nat) : Prop :=
  (∃ e, r = .error e dev) ∨ (buf ≠ [] ∧ r = .ok 0 dev)

/-- What is asked of the sizes in `write_at`, on a file of some size: a new size that is handed to
`increase_size` is the end of the write, a write behind the last byte that the tree can address is
refused whatever the exercises do, and no operation on the way to the number of blocks overflows. -/
structure Representable (a : Arith) (offset : Nat) (buf : List UInt8) (size : UInt32) : Prop where
  newSize : ∀ n, Inode.writeEnd a offset buf.length = .ok n → n.toNat = offset + buf.length
  refused : indirect2Bound * blockSz < offset + buf.length →
    ∀ alloc grow write efs inode dev, AllocSpec alloc → Inode.size inode dev = .ok size →
      Refused buf dev (inode.writeAt alloc grow write a efs offset buf dev)
  needed : ∀ (di : DiskInode) n, di.size = size → Inode.writeEnd a offset buf.length = .ok n →
    size < n → ∃ k, di.blocksNumNeeded .exact n = .ok k

section

variable (a : Arith) {offset len : Nat} {di : DiskInode} {newSize : UInt32}

/-- The end of a write that is a `u32` is the same in every build. -/
theorem writeEnd_eq (h : offset + len < 2 ^ 32) :
    ∃ n, Inode.writeEnd a offset len = .ok n ∧ n.toNat = offset + len := by
  obtain ⟨n, hn⟩ := exists_toNat_eq h
  refine ⟨n, bind_eq_ok.mpr ⟨offset + len, ?_, a.asU32_eq_ok hn⟩, hn⟩
  rw [Arith.addUsize, if_pos (.inr (by omega)), Nat.mod_eq_of_lt (by omega)]

/-- The end of a write in a release build, or in a debug build where the sum is a `usize`. -/
theorem writeEnd_of_no_panic {a : Arith} (h : a = .release ∨ a = .debug ∧ offset + len < 2 ^ 64) :
    Inode.writeEnd a offset len = .ok (.ofNat ((offset + len) % 2 ^ 64)) := by
  have hexact : a ≠ .exact := by
    rintro rfl
    simp at h
  refine bind_eq_ok.mpr ⟨(offset + len) % 2 ^ 64, ?_, ?_⟩
  · rw [Arith.addUsize, if_pos (h.imp_right And.right)]
  · rw [Arith.asU32, if_pos (.inl hexact)]

/-- In a debug build a sum that is no `usize` panics. -/
theorem writeEnd_debug_eq_error (h : 2 ^ 64 ≤ offset + len) :
    Inode.writeEnd .debug offset len = .error .overflow := by
  rw [Inode.writeEnd, Arith.addUsize, if_neg (by simp; omega)]
  rfl

/-- The inode whose size was read can be read as a whole, and has this size. -/
theorem Inode.readDiskInode_of_size {inode : Inode} {dev : Store} {size : UInt32}
    (h : inode.size dev = .ok size) :
    ∃ di, inode.readDiskInode dev id = .ok di ∧ di.size = size := by
  obtain ⟨u, hcheck, h⟩ := bind_eq_ok.mp h
  obtain ⟨di, hdi, h⟩ := bind_eq_ok.mp h
  cases h
  exact ⟨di, bind_eq_ok.mpr ⟨u, hcheck, bind_eq_ok.mpr ⟨di, hdi, rfl⟩⟩, rfl⟩

/-- An inode that is put back as it was read leaves the device as it was. -/
theorem Inode.put_of_readDiskInode {inode : Inode} {dev : Store}
    (h : inode.readDiskInode dev id = .ok di) : inode.put ⟨di, dev⟩ = dev := by
  obtain ⟨-, -, h⟩ := bind_eq_ok.mp h
  obtain ⟨di', hdi, h⟩ := bind_eq_ok.mp h
  rw [show di' = di from Except.ok.inj h] at hdi
  have hread : DiskInode.codec.read (dev inode.blockId.toNat) inode.blockOffset = some di := by
    rw [valueAt] at hdi
    split at hdi
    · cases hdi
      assumption
    · cases hdi
  exact Function.update_eq_self_iff.mpr
    (Bytes.Codec.ofWords_write_read DiskInode.word_of_ofWords hread)

/-- Where the end of the write panics, `write_at` does, with the device as it was. -/
theorem writeAt_eq_error {a : Arith} {alloc : Bitmap → Store → Option Nat × Store}
    {efs : EasyFileSystem} {grow : UInt32 → List UInt32 → EStateM Panic Held Unit}
    {write : Nat → List UInt8 → EStateM Panic Held Nat} {inode : Inode} {dev : Store}
    {buf : List UInt8} {e : Panic} (hread : inode.readDiskInode dev id = .ok di)
    (herr : Inode.writeEnd a offset buf.length = .error e) :
    inode.writeAt alloc grow write a efs offset buf dev = .error e dev := by
  have hrun : ofExcept (Inode.writeEnd a offset buf.length) ⟨di, dev⟩ = .error e ⟨di, dev⟩ := by
    rw [herr]
    rfl
  rw [Inode.writeAt, Inode.modifyDiskInode, hread]
  dsimp only
  rw [run_bind_error hrun]
  exact congrArg _ (Inode.put_of_readDiskInode hread)

/-- If no operation of `blocks_num_needed` overflows, the size can be rounded up. -/
theorem lt_of_blocksNumNeeded {k : UInt32} (h : di.blocksNumNeeded .exact newSize = .ok k) :
    newSize.toNat + blockSz < 2 ^ 32 := by
  rw [DiskInode.blocksNumNeeded] at h
  split at h
  · obtain ⟨new, hnew, -⟩ := bind_eq_ok.mp h
    rw [DiskInode.totalBlocks] at hnew
    obtain ⟨blocks, hblocks, -⟩ := bind_eq_ok.mp hnew
    rw [DiskInode.dataBlocksOf] at hblocks
    obtain ⟨sum, hsum, -⟩ := bind_eq_ok.mp hblocks
    have := Arith.of_exact_add hsum
    have := sum.toNat_lt
    have hsz : (UInt32.ofNat blockSz).toNat = blockSz := rfl
    omega
  · cases h

/-- **`write_at` refuses nothing itself.** It returns what `DiskInode::write_at` does as soon as the
exercises succeed and there are enough free bits. -/
theorem writeAt_eq_ok {alloc : Bitmap → Store → Option Nat × Store} {efs : EasyFileSystem}
    {grow : UInt32 → List UInt32 → EStateM Panic Held Unit}
    {write : Nat → List UInt8 → EStateM Panic Held Nat} {inode : Inode} {dev : Store}
    {buf : List UInt8} {n : Nat} (spec : AllocSpec alloc)
    (hstart : efs.dataAreaStartBlock.toNat + efs.dataBitmap.maximum ≤ 2 ^ 32)
    (hgrow : ∀ v s, ∃ s', grow newSize v s = .ok () s')
    (hwrite : ∀ s, ∃ s', write offset buf s = .ok n s')
    (hend : Inode.writeEnd a offset buf.length = .ok newSize)
    (hread : inode.readDiskInode dev id = .ok di)
    (hroom : di.size < newSize → ∃ k, di.blocksNumNeeded a newSize = .ok k ∧
      k.toNat ≤ (efs.dataBitmap.free dev).card) :
    ∃ dev', inode.writeAt alloc grow write a efs offset buf dev = .ok n dev' := by
  have hincrease : ∃ s, Inode.increaseSize alloc grow a efs newSize ⟨di, dev⟩ = .ok () s := by
    rcases UInt32.lt_or_le di.size newSize with hlt | hle
    · obtain ⟨k, hk, hcard⟩ := hroom hlt
      obtain ⟨v, s, hloop⟩ := @allocLoop_eq_ok alloc a efs spec hstart k.toNat ⟨di, dev⟩ hcard []
      obtain ⟨s', hs'⟩ := hgrow v s
      refine ⟨s', ?_⟩
      rw [@increaseSize_eq alloc a efs grow newSize k ⟨di, dev⟩ hlt hk, run_bind_ok hloop]
      exact hs'
    · exact ⟨⟨di, dev⟩, increaseSize_of_le a efs hle⟩
  obtain ⟨s, hs⟩ := hincrease
  obtain ⟨s', hs'⟩ := hwrite s
  refine ⟨inode.put s', ?_⟩
  rw [Inode.writeAt, Inode.modifyDiskInode, hread]
  dsimp only
  rw [run_bind_ok (run_ofExcept_ok hend _), run_bind_ok hs, hs']

end

/-- The file system on a formatted device with `2 ^ 24` data blocks. -/
def largeDisk : EasyFileSystem := ⟨⟨1, 1⟩, ⟨1026, 4096⟩, 2, 5122⟩

example : layout .debug 16782338 1 = .ok (⟨1024, 4096, 16777216⟩, largeDisk) := by decide

/-- That device with an inode in the place of the root inode and all data bits free. -/
def rootOnly (di : DiskInode) : Store :=
  Function.update (fun _ _ => 0) 2 (DiskInode.codec.write (fun _ => 0) 0 di)

/-- On the device with a root inode only, reading that inode succeeds. -/
theorem readDiskInode_rootOnly {V : Type} (di : DiskInode) (f : DiskInode → V) :
    largeDisk.rootInode.readDiskInode (rootOnly di) f = .ok (f di) :=
  readBlock_write DiskInode.codec f (by decide) (Function.update_self ..)

/-- On the device with a root inode only, all bits of the data bitmap are free. -/
theorem card_free_rootOnly (di : DiskInode) :
    (largeDisk.dataBitmap.free (rootOnly di)).card = 2 ^ 24 := by
  have hfree : largeDisk.dataBitmap.free (rootOnly di) = Finset.range (2 ^ 24) := by
    ext bit
    rw [Bitmap.mem_free, Finset.mem_range]
    refine and_iff_left (Bitmap.testBit_of_zero (Function.update_of_ne ?_ ..))
    exact Nat.ne_of_gt (Nat.lt_of_lt_of_le (by decide : 2 < 1026) (Nat.le_add_right ..))
  rw [hfree, Finset.card_range]

/-- A `DiskInode::increase_size` that succeeds: it sets the size, and takes no block. -/
def growSize (newSize : UInt32) (_ : List UInt32) : EStateM Panic Held Unit :=
  modify fun s => { s with inode := { s.inode with size := newSize } }

/-- A `DiskInode::write_at` that succeeds and reports that all bytes were written. -/
def writeAll (_ : Nat) (buf : List UInt8) : EStateM Panic Held Nat := pure buf.length

/-- An inode without blocks but with the given size, enough for what `increase_size` looks at. -/
def ofSize (size : UInt32) : DiskInode := ⟨size, fun _ => 0, 0, 0, .file⟩

/-- On the large disk every write whose size can be rounded up goes through. -/
theorem writeAt_largeDisk (a : Arith) {offset : Nat} {buf : List UInt8} {size n : UInt32}
    (hend : Inode.writeEnd a offset buf.length = .ok n)
    (hroom : size < n → n.toNat + blockSz < 2 ^ 32) :
    ∃ dev', largeDisk.rootInode.writeAt Bitmap.allocFirst growSize writeAll a largeDisk offset buf
      (rootOnly (ofSize size)) = .ok buf.length dev' := by
  refine writeAt_eq_ok a Bitmap.allocFirst_spec (by decide) (fun _ _ => ⟨_, rfl⟩)
    (fun _ => ⟨_, rfl⟩) hend (readDiskInode_rootOnly (ofSize size) id) fun hlt => ?_
  obtain ⟨_, new, k, -, -, hk, -, hnew, hdiff⟩ :=
    @blocksNumNeeded_eq a n (ofSize size) (UInt32.le_of_lt hlt) (hroom hlt)
  have hcard := card_tree_lt (hroom hlt)
  refine ⟨k, hk, ?_⟩
  rw [card_free_rootOnly]
  omega

/-- A write behind the end of the tree whose end does not panic is not refused, or an operation
overflows on the way. -/
theorem Representable.end_le {a : Arith} {offset : Nat} {buf : List UInt8} {size n : UInt32}
    (h : Representable a offset buf size) (hend : Inode.writeEnd a offset buf.length = .ok n) :
    offset + buf.length ≤ indirect2Bound * blockSz := by
  by_contra hgt
  obtain ⟨dev', hok⟩ := writeAt_largeDisk a hend fun hlt => by
    obtain ⟨_, hexact⟩ := h.needed (ofSize size) n rfl hend hlt
    exact lt_of_blocksNumNeeded hexact
  have href := h.refused (Nat.lt_of_not_le hgt) Bitmap.allocFirst growSize writeAll largeDisk
    largeDisk.rootInode (rootOnly (ofSize size)) Bitmap.allocFirst_spec
    (readDiskInode_rootOnly (ofSize size) (·.size))
  rw [hok] at href
  rcases href with ⟨e, herr⟩ | ⟨hne, hzero⟩
  · cases herr
  · injection hzero with hlen
    exact hne (List.eq_nil_of_length_eq_zero hlen)

/-- A write that ends where the tree does or before is handled right in every build. -/
theorem representable_of_le (a : Arith) {offset : Nat} {buf : List UInt8} (size : UInt32)
    (hle : offset + buf.length ≤ indirect2Bound * blockSz) : Representable a offset buf size := by
  have hbound : indirect2Bound * blockSz + blockSz < 2 ^ 32 := by decide
  obtain ⟨n, hend, hn⟩ := writeEnd_eq a (show offset + buf.length < 2 ^ 32 by omega)
  have heq : ∀ m, Inode.writeEnd a offset buf.length = .ok m → n = m := fun m hm =>
    Except.ok.inj (hend.symm.trans hm)
  refine ⟨fun m hm => heq m hm ▸ hn, fun hgt => absurd hle (Nat.not_le_of_lt hgt), ?_⟩
  intro di m hdi hm hlt
  obtain rfl := heq m hm
  have hroom : n.toNat + blockSz < 2 ^ 32 := by omega
  obtain ⟨_, _, k, -, -, hk, -⟩ := blocksNumNeeded_eq .exact (UInt32.le_of_lt (hdi ▸ hlt)) hroom
  exact ⟨k, hk⟩

/-- Where the end of the write panics, nothing is handed to `increase_size`, and the write is
refused. -/
theorem representable_of_error {a : Arith} {offset : Nat} {buf : List UInt8} {e : Panic}
    (size : UInt32) (herr : Inode.writeEnd a offset buf.length = .error e) :
    Representable a offset buf size where
  newSize n hend := by
    rw [herr] at hend
    cases hend
  refused _ _ _ _ efs inode dev _ hsize := by
    obtain ⟨di, hread, -⟩ := Inode.readDiskInode_of_size hsize
    exact .inl ⟨e, writeAt_eq_error hread herr⟩
  needed _ n _ hend _ := by
    rw [herr] at hend
    cases hend

/-- **When the sizes in `write_at` are right:** if and only if the write ends where the tree does or
before, or, in a debug build, so far behind it that `offset + buf.len()` panics. -/
theorem writeAt_representable_iff (offset : Nat) (buf : List UInt8) (size : UInt32) :
    (Representable .release offset buf size ↔
      offset + buf.length ≤ indirect2Bound * blockSz) ∧
    (Representable .debug offset buf size ↔
      offset + buf.length ≤ indirect2Bound * blockSz ∨ 2 ^ 64 ≤ offset + buf.length) := by
  refine ⟨⟨fun h => ?_, representable_of_le .release size⟩, fun h => ?_, ?_⟩
  · exact h.end_le (writeEnd_of_no_panic (.inl rfl))
  · by_cases hlt : offset + buf.length < 2 ^ 64
    · exact .inl (h.end_le (writeEnd_of_no_panic (.inr ⟨rfl, hlt⟩)))
    · exact .inr (Nat.le_of_not_lt hlt)
  · rintro (hle | hge)
    · exact representable_of_le .debug size hle
    · exact representable_of_error size (writeEnd_debug_eq_error hge)

/-- One byte at the end of 4 GiB: the new size is 0. One byte behind the end of the tree: the size
is right, but the write is not refused. -/
theorem writeAt_not_representable :
    (Inode.writeEnd .release 4294967295 1 = .ok 0 ∧
      ¬ Representable .release 4294967295 [7] 0) ∧
    Inode.writeEnd .release 8468480 1 = .ok 8468481 ∧ ¬ Representable .release 8468480 [7] 0 := by
  have hzero : Inode.writeEnd .release 4294967295 1 = .ok 0 := by decide
  have hbehind : Inode.writeEnd .release 8468480 1 = .ok 8468481 := by decide
  exact ⟨⟨hzero, fun h => absurd (h.end_le hzero) (by decide)⟩, hbehind,
    fun h => absurd (h.end_le hbehind) (by decide)⟩

end TinyOS.EasyFs
