import TinyOS.Lib.Codec

/-!
# Arithmetic and blocks of easy-fs

What the modules of `phase_5_fs/easy-fs` share: how 32-bit arithmetic behaves in the different
builds, what a panic reports, and the block device as the crate sees it through `get_block_cache`.
The cache is taken as coherent (a read sees the last modification of a block), so the device with
its cache is one store of blocks; `BlockCache` shows this of the cached blocks.
-/

namespace TinyOS.EasyFs

open Bytes

/-- `BLOCK_SZ` of `easy-fs/src/lib.rs`: the bytes of one block of the device. -/
def blockSz : Nat := 512

/-- Why easy-fs stops: an operation that overflows in a debug build, an assertion with its message,
an index behind the end of an array, `unwrap()` of `None`. `invalidValue` is no panic but undefined
behaviour: bytes viewed as a type they are not a value of. -/
inductive Panic where
  | overflow
  | assertion (msg : String)
  | index
  | unwrapNone
  | invalidValue
  deriving DecidableEq

/-- A computation succeeds if and only if its first part does and then the rest. -/
theorem bind_eq_ok {α β : Type} {x : Except Panic α} {f : α → Except Panic β} {r : β} :
    (x >>= f) = .ok r ↔ ∃ v, x = .ok v ∧ f v = .ok r := by
  cases x with
  | error e =>
    constructor
    · intro h; cases h
    · rintro ⟨_, h, _⟩; cases h
  | ok v =>
    constructor
    · intro h; exact ⟨v, rfl, h⟩
    · rintro ⟨_, h, hf⟩; cases h; exact hf

/-! ## 32-bit arithmetic -/

/-- How `u32` arithmetic is done: wrapping around (`release`), with a panic on overflow (`debug`),
or only as long as every operation and every `as u32` cast has its value as a natural number
(`exact`). -/
inductive Arith where
  | release
  | debug
  | exact
  deriving DecidableEq

/-- Every number below `2 ^ 32` is the value of a `u32`. -/
theorem exists_toNat_eq {n : Nat} (h : n < 2 ^ 32) : ∃ x : UInt32, x.toNat = n :=
  ⟨.ofNat n, by rw [UInt32.toNat_ofNat', Nat.mod_eq_of_lt h]⟩

namespace Arith

/-- `x + y` of two `u32`: modulo `2 ^ 32` in a release build, a panic on overflow in the other
modes. -/
def add (a : Arith) (x y : UInt32) : Except Panic UInt32 :=
  if a = .release ∨ x.toNat + y.toNat < 2 ^ 32 then .ok (x + y) else .error .overflow

/-- `x - y` of two `u32`: modulo `2 ^ 32` in a release build, a panic below zero in the other
modes. -/
def sub (a : Arith) (x y : UInt32) : Except Panic UInt32 :=
  if a = .release ∨ y.toNat ≤ x.toNat then .ok (x - y) else .error .overflow

/-- `x + y` of two `usize`, which are 64 bits wide on the machine the course runs on. -/
def addUsize (a : Arith) (x y : Nat) : Except Panic Nat :=
  if a = .release ∨ x + y < 2 ^ 64 then .ok ((x + y) % 2 ^ 64) else .error .overflow

/-- `n as u32` of a `usize`: both builds cut the upper bits off silently, and only `exact`
refuses. -/
def asU32 (a : Arith) (n : Nat) : Except Panic UInt32 :=
  if a ≠ .exact ∨ n < 2 ^ 32 then .ok (.ofNat n) else .error .overflow

/-- A sum that does not overflow is the same in every build. -/
theorem add_eq_ok (a : Arith) {x y z : UInt32} (h : z.toNat = x.toNat + y.toNat) :
    a.add x y = .ok z := by
  have hz := z.toNat_lt
  rw [add, if_pos (.inr (by omega))]
  congr 1
  apply UInt32.toNat_inj.mp
  rw [UInt32.toNat_add, Nat.mod_eq_of_lt (by omega), h]

/-- A difference that does not underflow is the same in every build. -/
theorem sub_eq_ok (a : Arith) {x y z : UInt32} (h : x.toNat = z.toNat + y.toNat) :
    a.sub x y = .ok z := by
  rw [sub, if_pos (.inr (by omega))]
  congr 1
  apply UInt32.toNat_inj.mp
  rw [UInt32.toNat_sub_of_le _ _ (UInt32.le_iff_toNat_le.mpr (by omega))]
  omega

/-- A cast that does not truncate is the same in every build. -/
theorem asU32_eq_ok (a : Arith) {n : Nat} {z : UInt32} (h : z.toNat = n) :
    a.asU32 n = .ok z := by
  have hz := z.toNat_lt
  rw [asU32, if_pos (.inr (by omega)), ← h, UInt32.ofNat_toNat]

/-- Where nothing overflows, the sum of the two `u32` is the sum of the numbers they stand for. -/
theorem of_exact_add {x y z : UInt32} (h : exact.add x y = .ok z) :
    z.toNat = x.toNat + y.toNat := by
  unfold add at h
  split at h
  · rename_i hlt
    rcases hlt with hlt | hlt
    · cases hlt
    · cases h
      rw [UInt32.toNat_add, Nat.mod_eq_of_lt hlt]
  · cases h

/-- Where nothing overflows, adding back what was subtracted gives the number one started with. -/
theorem of_exact_sub {x y z : UInt32} (h : exact.sub x y = .ok z) :
    x.toNat = z.toNat + y.toNat := by
  unfold sub at h
  split at h
  · rename_i hle
    rcases hle with hle | hle
    · cases hle
    · cases h
      rw [UInt32.toNat_sub_of_le _ _ (UInt32.le_iff_toNat_le.mpr hle)]
      omega
  · cases h

/-- Where nothing is cut off, the `u32` of a cast stands for the `usize` it was made of. -/
theorem of_exact_asU32 {n : Nat} {z : UInt32} (h : exact.asU32 n = .ok z) : z.toNat = n := by
  unfold asU32 at h
  split at h
  · rename_i hlt
    rcases hlt with hlt | hlt
    · exact absurd rfl hlt
    · cases h
      rw [UInt32.toNat_ofNat', Nat.mod_eq_of_lt hlt]
  · cases h

end Arith

/-! ## Blocks -/

/-- A block of the device, byte by byte; that there are `BLOCK_SZ` of them is part of the type. -/
abbrev Block := Fin blockSz → UInt8

/-- The block device behind its coherent cache: what a read of a block sees, whether or not it
has been written back. `TinyOS.EasyFs.BlockCache` is about the cache itself. -/
abbrev Store := Nat → Block

/-- The assertion of `get_ref` and `get_mut`: the value lies inside the block. -/
def checkBounds (offset size : Nat) : Except Panic Unit :=
  if offset + size ≤ blockSz then .ok ()
  else .error (.assertion "offset + type_size <= BLOCK_SZ")

/-- The value of type `T` at an offset of a block. -/
def valueAt {T : Type} (c : Codec T) (b : Block) (offset : Nat) : Except Panic T :=
  match c.read b offset with
  | some t => .ok t
  | none => .error .invalidValue

/-- `get_block_cache(block_id).lock().read(offset, |t: &T| f(t))`, which panics where the value
does not fit into the block. -/
def readBlock {T V : Type} (c : Codec T) (dev : Store) (blockId offset : Nat) (f : T → V) :
    Except Panic V := do
  checkBounds offset c.size
  return f (← valueAt c (dev blockId) offset)

/-- `get_block_cache(block_id).lock().modify(offset, |t: &mut T| *t = f(t))`: the other blocks,
and the bytes around the value, stay as they are. -/
def modifyBlock {T : Type} (c : Codec T) (dev : Store) (blockId offset : Nat) (f : T → T) :
    Except Panic Store := do
  checkBounds offset c.size
  let t ← valueAt c (dev blockId) offset
  return Function.update dev blockId (c.write (dev blockId) offset (f t))

/-- **A modification.** Where a value can be read, it is replaced, and all other blocks stay. -/
theorem modifyBlock_eq {T : Type} (c : Codec T) {dev : Store} {blockId offset : Nat} (f : T → T)
    {t : T} (h : offset + c.size ≤ blockSz) (ht : c.read (dev blockId) offset = some t) :
    modifyBlock c dev blockId offset f =
      .ok (Function.update dev blockId (c.write (dev blockId) offset (f t))) := by
  simp only [modifyBlock, checkBounds, if_pos h, valueAt, ht]
  rfl

/-- A value that was just written is read, as long as it lies inside its block: the codec finds
its own bytes again. -/
theorem readBlock_write {T V : Type} (c : Codec T) {dev : Store} {b : Block} {t : T}
    {blockId offset : Nat} (f : T → V) (h : offset + c.size ≤ blockSz)
    (hb : dev blockId = c.write b offset t) :
    readBlock c dev blockId offset f = .ok (f t) := by
  simp only [readBlock, checkBounds, if_pos h, valueAt, hb, c.read_write b t h]
  rfl

end TinyOS.EasyFs
