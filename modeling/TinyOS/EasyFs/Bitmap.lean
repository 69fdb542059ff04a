import TinyOS.EasyFs.Basic

/-!
# Bitmaps

`Bitmap` of `easy-fs/src/bitmap.rs`. `Bitmap::alloc` is an exercise of the course; what it has to do
is written down above it, and `AllocSpec` states it for the parameter that stands for it.
-/

namespace TinyOS.EasyFs

/-- `BLOCK_BITS`: a bitmap block keeps one bit for each of the bits of a block. -/
def blockBits : Nat := blockSz * 8

/-- `struct Bitmap`: the blocks of the device that hold the bits, one after the other from
`start_block_id` on. -/
structure Bitmap where
  startBlockId : Nat
  blocks : Nat
  deriving DecidableEq

/-- The bitmap block, the `u64` in it and the bit in that of a bit position. -/
def decomposition (bit : Nat) : Nat × Nat × Nat :=
  (bit / blockBits, bit % blockBits / 64, bit % blockBits % 64)

namespace Bitmap

/-- `Bitmap::maximum`: how many bits the bitmap manages, those of its last block included. -/
def maximum (bm : Bitmap) : Nat := bm.blocks * blockBits

/-- The block of the device that holds a bit: `BLOCK_BITS` bits a block, from the first one on. -/
def blockOf (bm : Bitmap) (bit : Nat) : Nat := bm.startBlockId + (decomposition bit).1

/-- The byte of its block that holds a bit: a `u64` is eight bytes, the least significant first. -/
def byteOf (bit : Nat) : Fin blockSz :=
  ⟨8 * (decomposition bit).2.1 + (decomposition bit).2.2 / 8, by
    simp only [decomposition, blockBits, blockSz]
    omega⟩

/-- The value of a bit of the bitmap as it lies on the device, `true` where it is taken. -/
def testBit (bm : Bitmap) (dev : Store) (bit : Nat) : Bool :=
  (dev (bm.blockOf bit) (byteOf bit)).toNat.testBit ((decomposition bit).2.2 % 8)

/-- The device after a bit was set: a single byte of a single block is another one. -/
def setBit (bm : Bitmap) (dev : Store) (bit : Nat) : Store :=
  let b := dev (bm.blockOf bit)
  let mask : UInt8 := 1 <<< UInt8.ofNat ((decomposition bit).2.2 % 8)
  Function.update dev (bm.blockOf bit)
    (Function.update b (byteOf bit) (b (byteOf bit) ||| mask))

/-- Setting a bit leaves the other blocks as they are. -/
theorem setBit_of_ne {bm : Bitmap} {dev : Store} {bit b : Nat} (h : b ≠ bm.blockOf bit) :
    bm.setBit dev bit b = dev b := Function.update_of_ne h ..

/-- The mask of a bit of a byte has this one bit, so that a disjunction with it changes no other. -/
theorem testBit_mask {k : Nat} (hk : k < 8) (m : Nat) :
    ((1 : UInt8) <<< UInt8.ofNat k).toNat.testBit m = decide (m = k) := by
  have hmask : ((1 : UInt8) <<< UInt8.ofNat k).toNat = 2 ^ k := by
    interval_cases k <;> rfl
  rw [hmask, Nat.testBit_two_pow]
  exact decide_eq_decide.mpr eq_comm

/-- Setting a bit sets this bit and no other one. -/
theorem testBit_setBit (bm : Bitmap) (dev : Store) (bit j : Nat) :
    bm.testBit (bm.setBit dev bit) j = (decide (j = bit) || bm.testBit dev j) := by
  have hbit : j = bit ↔ bm.blockOf j = bm.blockOf bit ∧ byteOf j = byteOf bit ∧
      (decomposition j).2.2 % 8 = (decomposition bit).2.2 % 8 := by
    simp only [blockOf, byteOf, decomposition, blockBits, blockSz, Fin.mk.injEq]
    omega
  by_cases hb : bm.blockOf j = bm.blockOf bit
  · by_cases hy : byteOf j = byteOf bit
    · -- the same byte: the mask decides
      rw [testBit, testBit, setBit, hb, hy, Function.update_self, Function.update_self,
        UInt8.toNat_or, Nat.testBit_or, testBit_mask (Nat.mod_lt _ (by decide)), Bool.or_comm]
      congr 1
      exact decide_eq_decide.mpr (by rw [hbit]; exact ⟨fun h => ⟨hb, hy, h⟩, fun h => h.2.2⟩)
    · rw [testBit, testBit, setBit, hb, Function.update_self, Function.update_of_ne hy,
        decide_eq_false fun h => hy (hbit.mp h).2.1, Bool.false_or]
  · rw [testBit, testBit, setBit_of_ne hb, decide_eq_false fun h => hb (hbit.mp h).1,
      Bool.false_or]

/-- No bit is set in a block of zeros, which is what `create` leaves in the bitmap blocks. -/
theorem testBit_of_zero {bm : Bitmap} {dev : Store} {bit : Nat}
    (h : dev (bm.blockOf bit) = fun _ => 0) : bm.testBit dev bit = false := by
  rw [testBit, h]
  exact Nat.zero_testBit _

/-- A device on which the first `n` bits of a bitmap are set. -/
def filled (bm : Bitmap) (n : Nat) : Store := fun b i =>
  .ofNat (2 ^ min 8 (n - (blockBits * (b - bm.startBlockId) + 8 * i)) - 1)

/-- On a device with the first `n` bits set, a bit is taken exactly if it is one of these. -/
theorem testBit_filled (bm : Bitmap) (n bit : Nat) :
    bm.testBit (bm.filled n) bit = decide (bit < n) := by
  have hk (m : Nat) : 2 ^ min 8 m - 1 < 2 ^ 8 := by
    have := Nat.pow_le_pow_right (by decide : 0 < 2) (min_le_left 8 m)
    omega
  rw [testBit, filled, UInt8.toNat_ofNat', Nat.mod_eq_of_lt (hk _), Nat.testBit_two_pow_sub_one]
  refine decide_eq_decide.mpr ?_
  simp only [blockOf, byteOf, decomposition, blockBits, blockSz]
  omega

/-- The bits of the bitmap that are still free, the ones a correct `alloc` may hand out. -/
def free (bm : Bitmap) (dev : Store) : Finset Nat :=
  (Finset.range bm.maximum).filter fun bit => bm.testBit dev bit = false

/-- A bit is free if it is one the bitmap manages and its value on the device is zero. -/
theorem mem_free {bm : Bitmap} {dev : Store} {bit : Nat} :
    bit ∈ bm.free dev ↔ bit < bm.maximum ∧ bm.testBit dev bit = false := by
  rw [free, Finset.mem_filter, Finset.mem_range]

/-- Setting a free bit leaves one free bit fewer, and this is how the number of free blocks is
counted down. -/
theorem card_free_setBit {bm : Bitmap} {dev : Store} {bit : Nat} (h : bit ∈ bm.free dev) :
    (bm.free (bm.setBit dev bit)).card + 1 = (bm.free dev).card := by
  have herase : bm.free (bm.setBit dev bit) = (bm.free dev).erase bit := by
    ext j
    rw [Finset.mem_erase, mem_free, mem_free, testBit_setBit, Bool.or_eq_false_iff,
      decide_eq_false_iff_not]
    exact and_left_comm
  rw [herase, Finset.card_erase_add_one h]

end Bitmap

/-- What `Bitmap::alloc` is to do: allocate the first free bit, or return `None`. -/
structure AllocSpec (alloc : Bitmap → Store → Option Nat × Store) : Prop where
  found : ∀ bm dev bit, bit < bm.maximum → bm.testBit dev bit = false →
    (∀ j < bit, bm.testBit dev j = true) → alloc bm dev = (some bit, bm.setBit dev bit)
  full : ∀ bm dev, (∀ j < bm.maximum, bm.testBit dev j = true) → alloc bm dev = (none, dev)

/-- **What `alloc` does:** nothing if no bit is free, else it sets one that is. -/
theorem AllocSpec.cases {alloc : Bitmap → Store → Option Nat × Store} (spec : AllocSpec alloc)
    (bm : Bitmap) (dev : Store) :
    ((bm.free dev).card = 0 ∧ alloc bm dev = (none, dev)) ∨
      ∃ bit ∈ bm.free dev, alloc bm dev = (some bit, bm.setBit dev bit) := by
  rcases (bm.free dev).eq_empty_or_nonempty with hempty | hne
  · refine .inl ⟨Finset.card_eq_zero.mpr hempty, spec.full bm dev fun j hj => ?_⟩
    by_contra hbit
    have hmem : j ∈ bm.free dev := Bitmap.mem_free.mpr ⟨hj, Bool.eq_false_iff.mpr hbit⟩
    rw [hempty] at hmem
    exact Finset.notMem_empty j hmem
  · -- the first free bit
    obtain ⟨hlt, hbit⟩ := Bitmap.mem_free.mp ((bm.free dev).min'_mem hne)
    refine .inr ⟨_, (bm.free dev).min'_mem hne, spec.found bm dev _ hlt hbit fun j hj => ?_⟩
    by_contra hfree
    have hmem : j ∈ bm.free dev :=
      Bitmap.mem_free.mpr ⟨Nat.lt_trans hj hlt, Bool.eq_false_iff.mpr hfree⟩
    exact absurd ((bm.free dev).min'_le j hmem) (Nat.not_le_of_lt hj)

/-- The search from the first bit to the last, and the first that is free is set; if there is
none, nothing changes. -/
def Bitmap.allocFirst (bm : Bitmap) (dev : Store) : Option Nat × Store :=
  match (List.range bm.maximum).find? fun bit => !bm.testBit dev bit with
  | some bit => (some bit, bm.setBit dev bit)
  | none => (none, dev)

/-- The requirements on `alloc` can be met: taking the first free bit, as the comment of the
exercise has it, meets them. -/
theorem Bitmap.allocFirst_spec : AllocSpec Bitmap.allocFirst where
  found bm dev bit hlt hbit hbefore := by
    have hfind : (List.range bm.maximum).find? (fun bit => !bm.testBit dev bit) = some bit := by
      rw [List.find?_range_eq_some]
      refine ⟨by rw [hbit]; rfl, List.mem_range.mpr hlt, fun j hj => ?_⟩
      rw [hbefore j hj]
      rfl
    rw [allocFirst, hfind]
  full bm dev hall := by
    have hfind : (List.range bm.maximum).find? (fun bit => !bm.testBit dev bit) = none := by
      rw [List.find?_range_eq_none]
      intro j hj
      rw [hall j hj]
      rfl
    rw [allocFirst, hfind]

end TinyOS.EasyFs
