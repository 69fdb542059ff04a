import TinyOS.EasyFs.Mount
import TinyOS.Lib.Pool
import TinyOS.Lib.Transition

/-!
# Data blocks and their owners

`alloc_data` and `dealloc_data` of `easy-fs/src/efs.rs` over whole histories: a formatted device,
any number of allocations and deallocations, and in between writes of the owners to their blocks and
anything in the blocks before the data bitmap. `Bitmap::alloc` and `Bitmap::dealloc` are exercises;
`AllocSpec` and `DeallocSpec` state their requirements.

The set bits of the data bitmap are the blocks somebody has (`Inv.bits`), and a block that nobody
has is zero (`Inv.zero`), because `create` zeroes all of them and `dealloc_data` each one it takes
back. So the data blocks are a `Pool` of which the blocks on the device are real (`run_owned`).
-/

namespace TinyOS.EasyFs

open Transition

namespace Bitmap

/-- The device after a bit was cleared: a single byte of a single block is another one. -/
def clearBit (bm : Bitmap) (dev : Store) (bit : Nat) : Store :=
  let b := dev (bm.blockOf bit)
  let mask : UInt8 := 1 <<< UInt8.ofNat ((decomposition bit).2.2 % 8)
  Function.update dev (bm.blockOf bit)
    (Function.update b (byteOf bit) (b (byteOf bit) &&& ~~~mask))

/-- Clearing a bit leaves every block but the one that holds it as it is. -/
theorem clearBit_of_ne {bm : Bitmap} {dev : Store} {bit b : Nat} (h : b ≠ bm.blockOf bit) :
    bm.clearBit dev bit b = dev b := Function.update_of_ne h ..

/-- The complement of a mask, in a bit of a byte. -/
theorem testBit_and_not_mask {k m : Nat} (hk : k < 8) (hm : m < 8) (x : UInt8) :
    (x &&& ~~~((1 : UInt8) <<< UInt8.ofNat k)).toNat.testBit m =
      (decide (m ≠ k) && x.toNat.testBit m) := by
  rw [UInt8.toNat_and, Nat.testBit_and, Bool.and_comm]
  congr 1
  interval_cases k <;> interval_cases m <;> decide

/-- Clearing a bit clears this bit and no other one. -/
theorem testBit_clearBit (bm : Bitmap) (dev : Store) (bit j : Nat) :
    bm.testBit (bm.clearBit dev bit) j = (decide (j ≠ bit) && bm.testBit dev j) := by
  have hbit : j ≠ bit ↔ ¬ (bm.blockOf j = bm.blockOf bit ∧ byteOf j = byteOf bit ∧
      (decomposition j).2.2 % 8 = (decomposition bit).2.2 % 8) := by
    simp only [blockOf, byteOf, decomposition, blockBits, blockSz, Fin.mk.injEq]
    omega
  by_cases hb : bm.blockOf j = bm.blockOf bit
  · by_cases hy : byteOf j = byteOf bit
    · rw [testBit, testBit, clearBit, hb, hy, Function.update_self, Function.update_self,
        testBit_and_not_mask (Nat.mod_lt _ (by decide)) (Nat.mod_lt _ (by decide))]
      congr 1
      exact decide_eq_decide.mpr (by rw [hbit]; simp [hb, hy])
    · rw [testBit, testBit, clearBit, hb, Function.update_self, Function.update_of_ne hy,
        decide_eq_true (hbit.mpr fun h => hy h.2.1), Bool.true_and]
  · rw [testBit, testBit, clearBit_of_ne hb, decide_eq_true (hbit.mpr fun h => hb h.1),
      Bool.true_and]

/-- The bits of a bitmap are in its blocks, so that setting one leaves the other regions of the
device alone. -/
theorem blockOf_lt {bm : Bitmap} {bit : Nat} (h : bit < bm.maximum) :
    bm.startBlockId ≤ bm.blockOf bit ∧ bm.blockOf bit < bm.startBlockId + bm.blocks := by
  have hdiv : bit / blockBits < bm.blocks := Nat.div_lt_of_lt_mul (by rwa [Nat.mul_comm])
  exact ⟨Nat.le_add_right _ _, Nat.add_lt_add_left hdiv _⟩

/-- What is changed elsewhere does not change a bit: it depends on the block it lies in and on
no other. -/
theorem testBit_congr {bm : Bitmap} {dev dev' : Store} {bit : Nat}
    (h : dev' (bm.blockOf bit) = dev (bm.blockOf bit)) :
    bm.testBit dev' bit = bm.testBit dev bit := by
  rw [testBit, h, testBit]

end Bitmap

/-- What `Bitmap::dealloc` is to do: clear a bit, and panic if it was not set. -/
structure DeallocSpec (dealloc : Bitmap → Store → Nat → Except Panic Store) : Prop where
  set : ∀ bm dev bit, bm.testBit dev bit = true → dealloc bm dev bit = .ok (bm.clearBit dev bit)
  clear : ∀ bm dev bit, bm.testBit dev bit = false → ∃ p, dealloc bm dev bit = .error p

section

variable (alloc : Bitmap → Store → Option Nat × Store)
  (dealloc : Bitmap → Store → Nat → Except Panic Store)

/-- `EasyFileSystem::dealloc_data`: the block is zeroed first, then its bit is given back to the
data bitmap. -/
def EasyFileSystem.deallocData (a : Arith) (efs : EasyFileSystem) (dev : Store)
    (blockId : UInt32) : Except Panic Store := do
  let dev ← modifyBlock dataBlock dev blockId.toNat 0 fun _ _ => 0
  dealloc efs.dataBitmap dev (← a.sub blockId efs.dataAreaStartBlock).toNat

/-- The device, and the data blocks that have been handed out and not been taken back. -/
structure Blocks where
  dev : Store
  owned : List UInt32

variable (a : Arith) (efs : EasyFileSystem)

/-- A step of the file system: `alloc_data`, `dealloc_data` of an owned block, a write to such a
block, or one to a block before the data bitmap. -/
inductive Blocks.Step (s : Blocks) : Pool.Event UInt32 Block → Blocks → Prop where
  | alloc {id : UInt32} {dev : Store} (h : efs.allocData alloc a s.dev = .ok (id, dev)) :
      Step s (.alloc id) ⟨dev, id :: s.owned⟩
  | dealloc {id : UInt32} {dev : Store} (hid : id ∈ s.owned)
      (h : efs.deallocData dealloc a s.dev id = .ok dev) :
      Step s (.free id) ⟨dev, s.owned.erase id⟩
  /-- An owner modifies its block. -/
  | write {id : UInt32} (b : Block) (hid : id ∈ s.owned) :
      Step s (.write id b) ⟨Function.update s.dev id.toNat b, s.owned⟩
  /-- The super block, the inode bitmap or an inode is modified. -/
  | other {blockId : Nat} (b : Block) (h : blockId < efs.dataBitmap.startBlockId) :
      Step s .other ⟨Function.update s.dev blockId b, s.owned⟩

/-- The file system `create` leaves on some device, with no block handed out, and the steps its
owners can take. -/
def blockSystem (totalBlocks inodeBitmapBlocks : UInt32) :
    System Blocks (Pool.Event UInt32 Block) where
  init s := s.owned = [] ∧
    ∃ dev, EasyFileSystem.create alloc a dev totalBlocks inodeBitmapBlocks = .ok (efs, s.dev)
  step := Blocks.Step alloc dealloc a efs

end

/-! ## Formatted devices -/

variable {alloc : Bitmap → Store → Option Nat × Store}
  {dealloc : Bitmap → Store → Nat → Except Panic Store} {a : Arith}
  {totalBlocks inodeBitmapBlocks : UInt32} {sizes : Sizes} {efs : EasyFileSystem}

/-- What `create` leaves behind block 0: zeros, but for the bit and the slot of the root inode. -/
theorem create_dev (hspec : AllocSpec alloc) (hl : Laid totalBlocks inodeBitmapBlocks sizes efs)
    (hI : 1 ≤ inodeBitmapBlocks.toNat) {dev dev' : Store} {efs' : EasyFileSystem}
    (h : EasyFileSystem.create alloc a dev totalBlocks inodeBitmapBlocks = .ok (efs', dev')) :
    ∃ dev₂ : Store, (∀ b, 0 < b → b < totalBlocks.toNat → dev₂ b = fun _ => 0) ∧
      dev' = Function.update (efs.inodeBitmap.setBit dev₂ 0) efs.rootInode.blockId.toNat
        (DiskInode.codec.write (efs.inodeBitmap.setBit dev₂ 0 efs.rootInode.blockId.toNat)
          efs.rootInode.blockOffset emptyDir) := by
  have htotal := hl.total
  obtain ⟨dev₁, dev₂, hz, hs, -, hzero⟩ :=
    zeroBlocks_superBlock totalBlocks inodeBitmapBlocks sizes dev
  have hinode := hl.allocInode_eq hspec hI a (hzero 1 (by decide) (by omega))
  obtain ⟨_, hlayout, h⟩ := bind_eq_ok.mp h
  cases (hl.layout_eq a).symm.trans hlayout
  obtain ⟨_, hz', h⟩ := bind_eq_ok.mp h
  cases hz.symm.trans hz'
  obtain ⟨_, hs', h⟩ := bind_eq_ok.mp h
  cases hs.symm.trans hs'
  obtain ⟨_, hinode', h⟩ := bind_eq_ok.mp h
  cases hinode.symm.trans hinode'
  obtain ⟨_, hdir, h⟩ := bind_eq_ok.mp h
  cases h
  obtain ⟨-, -, hdir⟩ := bind_eq_ok.mp hdir
  obtain ⟨t, -, hdir⟩ := bind_eq_ok.mp hdir
  cases hdir
  exact ⟨dev₂, hzero, rfl⟩

/-- What `create` leaves behind the first inode block is zero. -/
theorem create_zero (hspec : AllocSpec alloc) (hl : Laid totalBlocks inodeBitmapBlocks sizes efs)
    (hI : 1 ≤ inodeBitmapBlocks.toNat) {dev dev' : Store} {efs' : EasyFileSystem}
    (h : EasyFileSystem.create alloc a dev totalBlocks inodeBitmapBlocks = .ok (efs', dev')) :
    ∀ b, efs.rootInode.blockId.toNat < b → b < totalBlocks.toNat → dev' b = fun _ => 0 := by
  intro b hb hlt
  have hroot := hl.rootInode_blockId hI
  have hbit := hl.blockOf_zero
  obtain ⟨dev₂, hzero, rfl⟩ := create_dev hspec hl hI h
  rw [Function.update_of_ne hb.ne', Bitmap.setBit_of_ne (by omega)]
  exact hzero b (by omega) hlt

/-! ## One call -/

/-- The data bitmap lies right before the data area, and every block it describes has a number. -/
structure Fits (efs : EasyFileSystem) : Prop where
  adjacent : efs.dataBitmap.startBlockId + efs.dataBitmap.blocks = efs.dataAreaStartBlock.toNat
  lt : efs.dataAreaStartBlock.toNat + efs.dataBitmap.maximum ≤ 2 ^ 32

/-- The block of a bit of the data bitmap lies inside the bitmap, and so before the data area. -/
theorem Fits.blockOf_lt (h : Fits efs) {bit : Nat} (hbit : bit < efs.dataBitmap.maximum) :
    efs.dataBitmap.startBlockId ≤ efs.dataBitmap.blockOf bit ∧
      efs.dataBitmap.blockOf bit < efs.dataAreaStartBlock.toNat := by
  rw [← h.adjacent]
  exact Bitmap.blockOf_lt hbit

/-- What `alloc_data` does: it panics if no bit is free, else sets a free one and hands out its
block. -/
theorem allocData_cases (hspec : AllocSpec alloc) (hfit : Fits efs) (a : Arith) (dev : Store) :
    ((efs.dataBitmap.free dev).card = 0 ∧ efs.allocData alloc a dev = .error .unwrapNone) ∨
      ∃ bit ∈ efs.dataBitmap.free dev, ∃ id : UInt32,
        id.toNat = bit + efs.dataAreaStartBlock.toNat ∧
        efs.allocData alloc a dev = .ok (id, efs.dataBitmap.setBit dev bit) := by
  have hlt := hfit.lt
  rcases hspec.cases efs.dataBitmap dev with ⟨hcard, halloc⟩ | ⟨bit, hbit, halloc⟩
  · refine .inl ⟨hcard, ?_⟩
    rw [EasyFileSystem.allocData, halloc]
  · have hmax := (Bitmap.mem_free.mp hbit).1
    obtain ⟨x, hx⟩ := exists_toNat_eq (show bit < 2 ^ 32 by omega)
    obtain ⟨id, hid⟩ := exists_toNat_eq
      (show bit + efs.dataAreaStartBlock.toNat < 2 ^ 32 by omega)
    refine .inr ⟨bit, hbit, id, hid, ?_⟩
    rw [EasyFileSystem.allocData, halloc]
    exact bind_eq_ok.mpr ⟨x, a.asU32_eq_ok hx, bind_eq_ok.mpr ⟨id, a.add_eq_ok (by omega), rfl⟩⟩

/-- Filling a block with zeros by `modify` succeeds and touches no other block. -/
theorem modifyBlock_zero (dev : Store) (b : Nat) :
    modifyBlock dataBlock dev b 0 (fun _ _ => 0) = .ok (Function.update dev b fun _ => 0) := by
  rw [modifyBlock_eq dataBlock _ (Nat.le_refl _) rfl]
  congr 2
  funext i
  have := i.isLt
  simp [Bytes.Codec.write, dataBlock]

/-- What `dealloc_data` does with a block of the data area. -/
theorem deallocData_eq (hfit : Fits efs) (a : Arith) (dev : Store) {id : UInt32} {bit : Nat}
    (hid : id.toNat = bit + efs.dataAreaStartBlock.toNat) (hbit : bit < efs.dataBitmap.maximum) :
    efs.deallocData dealloc a dev id =
      dealloc efs.dataBitmap (Function.update dev id.toNat fun _ => 0) bit := by
  have hlt := hfit.lt
  obtain ⟨x, hx⟩ := exists_toNat_eq (show bit < 2 ^ 32 by omega)
  rw [EasyFileSystem.deallocData, modifyBlock_zero]
  show (do dealloc _ _ (← a.sub id efs.dataAreaStartBlock).toNat) = _
  rw [a.sub_eq_ok (z := x) (by omega)]
  show dealloc _ _ x.toNat = _
  rw [hx]

/-! ## The invariant -/

/-- The owned blocks are the taken bits of the data bitmap, each once, and every block of the
device that is free is zero. -/
structure Blocks.Inv (totalBlocks : UInt32) (efs : EasyFileSystem) (s : Blocks) : Prop where
  nodup : s.owned.Nodup
  range : ∀ id ∈ s.owned, ∃ bit < efs.dataBitmap.maximum,
    id.toNat = bit + efs.dataAreaStartBlock.toNat
  bits : ∀ bit < efs.dataBitmap.maximum, efs.dataBitmap.testBit s.dev bit = true ↔
    ∃ id ∈ s.owned, id.toNat = bit + efs.dataAreaStartBlock.toNat
  zero : ∀ b, efs.dataAreaStartBlock.toNat ≤ b → b < totalBlocks.toNat →
    (∀ id ∈ s.owned, id.toNat ≠ b) → s.dev b = fun _ => 0

namespace Blocks

variable {s s' : Blocks} {e : Pool.Event UInt32 Block} {tr : List (Pool.Event UInt32 Block)}

/-- A free bit is one of a block that nobody has. -/
theorem Inv.not_mem_of_free (h : s.Inv totalBlocks efs) {bit : Nat} {id : UInt32}
    (hbit : bit ∈ efs.dataBitmap.free s.dev)
    (hid : id.toNat = bit + efs.dataAreaStartBlock.toNat) : id ∉ s.owned := by
  intro hmem
  obtain ⟨hlt, hfree⟩ := Bitmap.mem_free.mp hbit
  rw [(h.bits bit hlt).mpr ⟨id, hmem, hid⟩] at hfree
  cases hfree

/-- What `alloc_data` hands out is zero: setting the bit does not touch the data area. -/
theorem Inv.zero_of_free (h : s.Inv totalBlocks efs) (hfit : Fits efs) {bit : Nat} {id : UInt32}
    (hbit : bit ∈ efs.dataBitmap.free s.dev)
    (hid : id.toNat = bit + efs.dataAreaStartBlock.toNat) (hlt : id.toNat < totalBlocks.toNat) :
    efs.dataBitmap.setBit s.dev bit id.toNat = fun _ => 0 := by
  have hblock := hfit.blockOf_lt (Bitmap.mem_free.mp hbit).1
  rw [Bitmap.setBit_of_ne (by omega)]
  refine h.zero _ (by omega) hlt fun id' hmem heq => h.not_mem_of_free hbit hid ?_
  rwa [← UInt32.toNat_inj.mp heq]

/-- A write that leaves the bitmap and the blocks nobody has as they are. -/
theorem Inv.write (h : s.Inv totalBlocks efs) {dev : Store}
    (hbits : ∀ bit < efs.dataBitmap.maximum,
      dev (efs.dataBitmap.blockOf bit) = s.dev (efs.dataBitmap.blockOf bit))
    (hzero : ∀ b, efs.dataAreaStartBlock.toNat ≤ b → (∀ id ∈ s.owned, id.toNat ≠ b) →
      dev b = s.dev b) : Inv totalBlocks efs ⟨dev, s.owned⟩ where
  nodup := h.nodup
  range := h.range
  bits := by
    intro bit hbit
    rw [Bitmap.testBit_congr (hbits bit hbit)]
    exact h.bits bit hbit
  zero := by
    intro b hb hlt hfree
    exact (hzero b hb hfree).trans (h.zero b hb hlt hfree)

/-- Handing out a free block keeps the invariant: the bit is taken and the block has an owner. -/
theorem Inv.allocated (hfit : Fits efs) (h : s.Inv totalBlocks efs) {bit : Nat} {id : UInt32}
    (hbit : bit ∈ efs.dataBitmap.free s.dev)
    (hid : id.toNat = bit + efs.dataAreaStartBlock.toNat) :
    Inv totalBlocks efs ⟨efs.dataBitmap.setBit s.dev bit, id :: s.owned⟩ := by
  have hmax := (Bitmap.mem_free.mp hbit).1
  have hblock := hfit.blockOf_lt hmax
  refine ⟨List.nodup_cons.mpr ⟨h.not_mem_of_free hbit hid, h.nodup⟩, ?_, ?_, ?_⟩
  · intro id' hid'
    rcases List.mem_cons.mp hid' with rfl | hid'
    · exact ⟨bit, hmax, hid⟩
    · exact h.range id' hid'
  · intro bit' hbit'
    rw [Bitmap.testBit_setBit, Bool.or_eq_true, decide_eq_true_eq, h.bits bit' hbit',
      List.exists_mem_cons_iff]
    refine or_congr_left ?_
    omega
  · intro b hb hlt hfree
    show efs.dataBitmap.setBit s.dev bit b = _
    rw [Bitmap.setBit_of_ne (by omega)]
    exact h.zero b hb hlt fun id' hid' => hfree id' (List.mem_cons_of_mem _ hid')

/-- Giving back a block keeps the invariant: it is zero, its bit is free and nobody owns it. -/
theorem Inv.deallocated (hfit : Fits efs) (h : s.Inv totalBlocks efs) {bit : Nat} {id : UInt32}
    (hbit : bit < efs.dataBitmap.maximum) (hmem : id ∈ s.owned)
    (hid : id.toNat = bit + efs.dataAreaStartBlock.toNat) :
    Inv totalBlocks efs ⟨efs.dataBitmap.clearBit (Function.update s.dev id.toNat fun _ => 0) bit,
      s.owned.erase id⟩ := by
  have hmem_erase : ∀ id', id' ∈ s.owned.erase id ↔ id' ≠ id ∧ id' ∈ s.owned :=
    fun id' => h.nodup.mem_erase_iff
  refine ⟨h.nodup.erase id, fun id' hid' => ?_, fun bit' hbit' => ?_, fun b hb hlt hfree => ?_⟩
  · exact h.range id' ((hmem_erase id').mp hid').2
  · have hblock := hfit.blockOf_lt hbit'
    rw [Bitmap.testBit_clearBit, Bitmap.testBit_congr (Function.update_of_ne (by omega) _ _),
      Bool.and_eq_true, decide_eq_true_eq, h.bits bit' hbit']
    constructor
    · rintro ⟨hne, id', hid', heq⟩
      refine ⟨id', (hmem_erase id').mpr ⟨?_, hid'⟩, heq⟩
      rintro rfl
      omega
    · rintro ⟨id', hid', heq⟩
      obtain ⟨hne, hid'⟩ := (hmem_erase id').mp hid'
      refine ⟨?_, id', hid', heq⟩
      rintro rfl
      exact hne (UInt32.toNat_inj.mp (by omega))
  · have hblock := hfit.blockOf_lt hbit
    show efs.dataBitmap.clearBit _ bit b = _
    rw [Bitmap.clearBit_of_ne (by omega), Function.update_apply]
    split
    · rfl
    · refine h.zero b hb hlt fun id' hid' heq => ?_
      refine hfree id' ((hmem_erase id').mpr ⟨?_, hid'⟩) heq
      rintro rfl
      omega

/-- An owner's `dealloc_data` succeeds: the bit is in range and is set, as the block is owned. -/
theorem Inv.deallocData_eq_ok (hdspec : DeallocSpec dealloc) (hfit : Fits efs)
    (h : s.Inv totalBlocks efs) (a : Arith) {id : UInt32} (hmem : id ∈ s.owned) :
    ∃ bit < efs.dataBitmap.maximum, id.toNat = bit + efs.dataAreaStartBlock.toNat ∧
      efs.deallocData dealloc a s.dev id =
        .ok (efs.dataBitmap.clearBit (Function.update s.dev id.toNat fun _ => 0) bit) := by
  obtain ⟨bit, hbit, hid⟩ := h.range id hmem
  have hblock := hfit.blockOf_lt hbit
  refine ⟨bit, hbit, hid, ?_⟩
  rw [deallocData_eq hfit a s.dev hid hbit]
  refine hdspec.set _ _ _ ?_
  rw [Bitmap.testBit_congr (Function.update_of_ne (by omega) _ _)]
  exact (h.bits bit hbit).mpr ⟨id, hmem, hid⟩

/-- The next `alloc_data` hands out a block nobody owns, or panics with every block of the
bitmap owned. -/
theorem Inv.allocData_next (hspec : AllocSpec alloc) (hfit : Fits efs) (h : s.Inv totalBlocks efs)
    (a : Arith) :
    (efs.allocData alloc a s.dev = .error .unwrapNone ∧
      ∀ n, efs.dataAreaStartBlock.toNat ≤ n →
        n < efs.dataAreaStartBlock.toNat + efs.dataBitmap.maximum → ∃ id ∈ s.owned, id.toNat = n) ∨
    ∃ id dev, efs.allocData alloc a s.dev = .ok (id, dev) ∧ id ∉ s.owned ∧
      (id.toNat < totalBlocks.toNat → dev id.toNat = fun _ => 0) := by
  rcases allocData_cases hspec hfit a s.dev with ⟨hcard, herr⟩ | ⟨bit, hbit, id, hid, hok⟩
  · refine .inl ⟨herr, fun n hle hlt => ?_⟩
    obtain ⟨bit, rfl⟩ := Nat.exists_eq_add_of_le' hle
    have hbit : bit < efs.dataBitmap.maximum := by omega
    refine (h.bits bit hbit).mp (by_contra fun hfree => ?_)
    have hmem : bit ∈ efs.dataBitmap.free s.dev :=
      Bitmap.mem_free.mpr ⟨hbit, Bool.eq_false_of_not_eq_true hfree⟩
    rw [Finset.card_eq_zero.mp hcard] at hmem
    exact absurd hmem (Finset.notMem_empty _)
  · exact .inr ⟨id, _, hok, h.not_mem_of_free hbit hid, h.zero_of_free hfit hbit hid⟩

/-- **A step keeps the invariant, and does what a pool has to do.** -/
theorem Step.inv (hspec : AllocSpec alloc) (hdspec : DeallocSpec dealloc) (hfit : Fits efs)
    (h : s.Inv totalBlocks efs) (hs : Step alloc dealloc a efs s e s') :
    s'.Inv totalBlocks efs ∧ Pool.Does (fun _ => 0) (fun id => id.toNat < totalBlocks.toNat)
      s.owned (fun id => s.dev id.toNat) e s'.owned fun id => s'.dev id.toNat := by
  have harea : ∀ id ∈ s.owned, efs.dataAreaStartBlock.toNat ≤ id.toNat := by
    intro id hid
    obtain ⟨bit, -, heq⟩ := h.range id hid
    omega
  cases hs with
  | @alloc id dev halloc =>
    rcases allocData_cases hspec hfit a s.dev with ⟨-, herr⟩ | ⟨bit, hbit, id', hid', hok⟩
    · rw [halloc] at herr
      cases herr
    · rw [halloc] at hok
      cases hok
      have hblock := hfit.blockOf_lt (Bitmap.mem_free.mp hbit).1
      refine ⟨h.allocated hfit hbit hid', fun id hid _ => Bitmap.setBit_of_ne ?_,
        h.not_mem_of_free hbit hid', rfl, h.zero_of_free hfit hbit hid'⟩
      have := harea id hid
      omega
  | @dealloc id dev hmem hdealloc =>
    obtain ⟨bit, hbit, hid, hok⟩ := h.deallocData_eq_ok hdspec hfit a hmem
    rw [hdealloc] at hok
    cases hok
    refine ⟨h.deallocated hfit hbit hmem hid, fun id' hid' hne => ?_, rfl⟩
    have := hfit.blockOf_lt hbit
    have := harea id' hid'
    refine (Bitmap.clearBit_of_ne (by omega)).trans (Function.update_of_ne (fun heq => ?_) _ _)
    exact hne (congrArg some (UInt32.toNat_inj.mp heq.symm))
  | @write id b hmem =>
    have := harea id hmem
    refine ⟨h.write (fun bit hbit => ?_) (fun b hb hfree => ?_), fun id' hid' hne => ?_, rfl,
      fun _ => Function.update_self ..⟩
    · have := hfit.blockOf_lt hbit
      exact Function.update_of_ne (by omega) _ _
    · exact Function.update_of_ne (hfree id hmem).symm _ _
    · refine Function.update_of_ne (fun heq => ?_) _ _
      exact hne (congrArg some (UInt32.toNat_inj.mp heq.symm))
  | @other blockId b hlt =>
    have := hfit.adjacent
    refine ⟨h.write (fun bit hbit => ?_) (fun b hb _ => ?_), fun id hid _ => ?_, rfl⟩
    · have := hfit.blockOf_lt hbit
      exact Function.update_of_ne (by omega) _ _
    · exact Function.update_of_ne (by omega) _ _
    · have := harea id hid
      exact Function.update_of_ne (by omega) _ _

/-! ## Whole histories -/

/-- The layout `create` computes has its data bitmap before the data area, with no overflow on
the way. -/
theorem fits_of_laid (hl : Laid totalBlocks inodeBitmapBlocks sizes efs)
    (hroom : totalBlocks.toNat + 4096 ≤ 2 ^ 32) : Fits efs := by
  have hstart := hl.dataAreaStart
  have hblocks := hl.dataBitmapBlocks
  have htotal := hl.total
  refine ⟨?_, ?_⟩
  · rw [hl.dataBitmap, hstart]
  · rw [Bitmap.maximum, hl.dataBitmap, blockBits, blockSz]
    dsimp only
    omega

/-- Nobody has a block of a formatted device, all bits of its data bitmap are free, and its data
area is zero. -/
theorem inv_init (hspec : AllocSpec alloc) (hl : Laid totalBlocks inodeBitmapBlocks sizes efs)
    (hI : 1 ≤ inodeBitmapBlocks.toNat)
    (h : (blockSystem alloc dealloc a efs totalBlocks inodeBitmapBlocks).init s) :
    s.Inv totalBlocks efs := by
  obtain ⟨howned, dev, hcreate⟩ := h
  have hzero := create_zero hspec hl hI hcreate
  have hroot := hl.rootInode_blockId hI
  have hinode := hl.inodeArea
  have hstart := hl.dataAreaStart
  have hblocks := hl.dataBitmapBlocks
  have htotal := hl.total
  refine ⟨?_, ?_, fun bit hbit => ?_, fun b hb hlt _ => hzero b (by omega) hlt⟩
  · rw [howned]
    exact List.nodup_nil
  · simp [howned]
  · have hblock := Bitmap.blockOf_lt hbit
    simp only [hl.dataBitmap] at hblock
    rw [Bitmap.testBit_of_zero, howned]
    · simp
    · rw [hl.dataBitmap]
      exact hzero _ (by omega) (by omega)

/-- The invariant of every history: it holds of a new file system and every call of an owner
keeps it. -/
theorem inv_of_run (hspec : AllocSpec alloc) (hdspec : DeallocSpec dealloc)
    (hl : Laid totalBlocks inodeBitmapBlocks sizes efs) (hI : 1 ≤ inodeBitmapBlocks.toNat)
    (hroom : totalBlocks.toNat + 4096 ≤ 2 ^ 32)
    (h₀ : (blockSystem alloc dealloc a efs totalBlocks inodeBitmapBlocks).init s)
    (hrun : (blockSystem alloc dealloc a efs totalBlocks inodeBitmapBlocks).Run s tr s') :
    s'.Inv totalBlocks efs ∧ Pool.Kept (fun _ => 0) (fun id => id.toNat < totalBlocks.toNat) tr
      s'.owned fun id => s'.dev id.toNat := by
  have hfit := fits_of_laid hl hroom
  refine hrun.history (I := fun tr s => s.Inv totalBlocks efs ∧ Pool.Kept (fun _ => 0)
    (fun id => id.toNat < totalBlocks.toNat) tr s.owned fun id => s.dev id.toNat)
    ⟨inv_init hspec hl hI h₀, ?_⟩ ?_
  · rw [h₀.1]
    exact .nil ..
  · intro tr t e u ⟨h, hk⟩ hs
    obtain ⟨h', hdoes⟩ := Step.inv hspec hdspec hfit h hs
    exact ⟨h', hk.step hdoes⟩

/-- Among the blocks of the bitmap only an owner's `dealloc_data` succeeds; any other one is
refused. -/
theorem Inv.deallocData_isOk_iff (hdspec : DeallocSpec dealloc) (hfit : Fits efs)
    (h : s.Inv totalBlocks efs) (a : Arith) {id : UInt32}
    (hle : efs.dataAreaStartBlock.toNat ≤ id.toNat)
    (hlt : id.toNat < efs.dataAreaStartBlock.toNat + efs.dataBitmap.maximum) :
    (∃ dev, efs.deallocData dealloc a s.dev id = .ok dev) ↔ id ∈ s.owned := by
  obtain ⟨bit, hid⟩ := Nat.exists_eq_add_of_le' hle
  have hbit : bit < efs.dataBitmap.maximum := by omega
  constructor
  · rintro ⟨dev, hok⟩
    by_contra hfree
    have hblock := hfit.blockOf_lt hbit
    rw [deallocData_eq hfit a s.dev hid hbit] at hok
    have hclear :
        efs.dataBitmap.testBit (Function.update s.dev id.toNat fun _ => 0) bit = false := by
      rw [Bitmap.testBit_congr (Function.update_of_ne (by omega) _ _)]
      refine Bool.eq_false_of_not_eq_true fun hset => hfree ?_
      obtain ⟨id', hmem, hid'⟩ := (h.bits bit hbit).mp hset
      rwa [UInt32.toNat_inj.mp (hid.trans hid'.symm)]
    obtain ⟨p, herr⟩ := hdspec.clear _ _ _ hclear
    rw [herr] at hok
    cases hok
  · intro hmem
    obtain ⟨_, -, -, hok⟩ := h.deallocData_eq_ok hdspec hfit a hmem
    exact ⟨_, hok⟩

/-- **Data blocks have one owner.** After any history of a formatted device: nobody shares a block,
and every owner finds in its block what it wrote last, zeros if nothing. The next `alloc_data`
panics only if every block of the bitmap has an owner; otherwise it hands out a zeroed block that
nobody has. And `dealloc_data` succeeds for the blocks that have an owner and panics for the
others. -/
theorem run_owned (hspec : AllocSpec alloc) (hdspec : DeallocSpec dealloc)
    (hlayout : layout .exact totalBlocks inodeBitmapBlocks = .ok (sizes, efs))
    (hI : 1 ≤ inodeBitmapBlocks.toNat) (hroom : totalBlocks.toNat + 4096 ≤ 2 ^ 32)
    (h₀ : (blockSystem alloc dealloc a efs totalBlocks inodeBitmapBlocks).init s)
    (hrun : (blockSystem alloc dealloc a efs totalBlocks inodeBitmapBlocks).Run s tr s') :
    s'.owned.Nodup ∧
    (∀ id ∈ s'.owned, id.toNat < totalBlocks.toNat →
      s'.dev id.toNat = Pool.lastWritten (fun _ => 0) id tr) ∧
    ((efs.allocData alloc a s'.dev = .error .unwrapNone ∧
        ∀ n, efs.dataAreaStartBlock.toNat ≤ n →
          n < efs.dataAreaStartBlock.toNat + efs.dataBitmap.maximum →
            ∃ id ∈ s'.owned, id.toNat = n) ∨
      ∃ id dev, efs.allocData alloc a s'.dev = .ok (id, dev) ∧ id ∉ s'.owned ∧
        (id.toNat < totalBlocks.toNat → dev id.toNat = fun _ => 0)) ∧
    ∀ id : UInt32, efs.dataAreaStartBlock.toNat ≤ id.toNat →
      id.toNat < efs.dataAreaStartBlock.toNat + efs.dataBitmap.maximum →
        ((∃ dev, efs.deallocData dealloc a s'.dev id = .ok dev) ↔ id ∈ s'.owned) := by
  have hl := laid_of_layout hlayout
  have hfit := fits_of_laid hl hroom
  obtain ⟨h, hk⟩ := inv_of_run hspec hdspec hl hI hroom h₀ hrun
  refine ⟨hk.nodup, hk.content, h.allocData_next hspec hfit a, fun id hle hlt => ?_⟩
  exact h.deallocData_isOk_iff hdspec hfit a hle hlt

end Blocks

/-- The deallocator `DeallocSpec` describes: a bit that is set is cleared, any other one panics. -/
def Bitmap.deallocBit (bm : Bitmap) (dev : Store) (bit : Nat) : Except Panic Store :=
  if bm.testBit dev bit then .ok (bm.clearBit dev bit)
  else .error (.assertion "assertion failed: the bit is set")

/-- The requirements on `dealloc` can be met: clearing a bit that is set, and panicking
otherwise, does. -/
theorem Bitmap.deallocBit_spec : DeallocSpec Bitmap.deallocBit where
  set _ _ _ h := if_pos h
  clear _ _ _ h := ⟨_, if_neg (Bool.eq_false_iff.mp h)⟩

/-- On a device of 4096 blocks, an owner writes its block and can give it back. -/
theorem Blocks.run_owned_one :
    let efs : EasyFileSystem := ⟨⟨1, 1⟩, ⟨1026, 1⟩, 2, 1027⟩
    let sys := blockSystem Bitmap.allocFirst Bitmap.deallocBit .debug efs 4096 1
    ∃ s s' id, sys.init s ∧ sys.Run s [.alloc id, .write id fun _ => 7] s' ∧ s'.owned = [id] ∧
      ∃ dev, efs.deallocData Bitmap.deallocBit .debug s'.dev id = .ok dev := by
  intro efs sys
  have hlayout : layout .exact 4096 1 = .ok (⟨1024, 1, 3069⟩, efs) := by decide
  have hl := laid_of_layout hlayout
  have hspec := Bitmap.allocFirst_spec
  have hfit := fits_of_laid hl (by decide)
  obtain ⟨dev, hcreate, -⟩ := create_eq hspec hl (by decide) .debug fun _ _ => 0
  have h₀ : sys.init ⟨dev, []⟩ := ⟨rfl, _, hcreate⟩
  have hinv := inv_init hspec hl (by decide) h₀
  rcases hinv.allocData_next hspec hfit .debug with ⟨-, hall⟩ | ⟨id, dev₁, hok, -⟩
  · obtain ⟨_, hmem, -⟩ := hall 1027 (by decide) (by decide)
    cases hmem
  · have halloc : sys.step ⟨dev, []⟩ (.alloc id) ⟨dev₁, [id]⟩ := Step.alloc hok
    have hwrite : sys.step ⟨dev₁, [id]⟩ (.write id fun _ => 7) _ :=
      Step.write _ (List.mem_singleton_self id)
    have hrun : sys.Run ⟨dev, []⟩ [.alloc id, .write id fun _ => 7] _ :=
      ((System.Run.nil _).snoc halloc).snoc hwrite
    obtain ⟨hinv', -⟩ := inv_of_run hspec Bitmap.deallocBit_spec hl (by decide) (by decide) h₀ hrun
    obtain ⟨-, -, -, hdealloc⟩ := run_owned hspec Bitmap.deallocBit_spec hlayout (by decide)
      (by decide) h₀ hrun
    obtain ⟨bit, hbit, hid⟩ := hinv'.range id (List.mem_singleton_self id)
    replace hdealloc := hdealloc id (by omega) (by omega)
    exact ⟨_, _, id, h₀, hrun, rfl, hdealloc.mpr (List.mem_singleton_self id)⟩

end TinyOS.EasyFs
