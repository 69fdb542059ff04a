import Mathlib

/-!
# Fixed-size values in byte blocks

A `Codec` reads and writes the values of a type as a fixed number of bytes and carries the proof
that reading undoes writing. A block of `n` bytes holds such values at byte offsets: `Codec.read`
reads the bytes from an offset on and `Codec.write` overwrites them. The codecs in use are records
of little-endian 32-bit words (`Codec.ofWords`).
-/

namespace Bytes

/-! ## Little-endian words -/

/-- The 32-bit word of the bytes `f 0`, …, `f 3`, the least significant first. -/
def le32 (f : Nat → UInt8) : UInt32 :=
  .ofNat ((f 0).toNat + 256 * (f 1).toNat + 65536 * (f 2).toNat + 16777216 * (f 3).toNat)

/-- Byte `k` of a 32-bit word, counted from the least significant. -/
def byte32 (w : UInt32) (k : Nat) : UInt8 := .ofNat (w.toNat / 256 ^ k)

/-- A word depends on its four bytes only, not on what follows them in memory. -/
theorem le32_congr {f g : Nat → UInt8} (h : ∀ k, k < 4 → f k = g k) : le32 f = le32 g := by
  rw [le32, le32, h 0 (by decide), h 1 (by decide), h 2 (by decide), h 3 (by decide)]

/-- A word is read back from its bytes: the four of them are all it is made of. -/
theorem le32_byte32 (w : UInt32) : le32 (byte32 w) = w := by
  apply UInt32.toNat_inj.mp
  have hw : w.toNat < 4294967296 := w.toNat_lt
  simp only [le32, byte32, UInt8.toNat_ofNat', UInt32.toNat_ofNat']
  omega

/-- Four bytes are the bytes of the word they make. -/
theorem byte32_le32 (f : Nat → UInt8) {k : Nat} (hk : k < 4) : byte32 (le32 f) k = f k := by
  apply UInt8.toNat_inj.mp
  have h0 := (f 0).toNat_lt
  have h1 := (f 1).toNat_lt
  have h2 := (f 2).toNat_lt
  have h3 := (f 3).toNat_lt
  simp only [le32, byte32, UInt8.toNat_ofNat', UInt32.toNat_ofNat']
  interval_cases k <;> omega

/-! ## Codecs -/

/-- Values of type `T` as `size` bytes. `decode` is partial: not every byte pattern need be a value
of `T`. -/
structure Codec (T : Type) where
  size : Nat
  decode : (Nat → UInt8) → Option T
  encode : T → Nat → UInt8
  decode_encode : ∀ t f, (∀ k, k < size → f k = encode t k) → decode f = some t

namespace Codec

variable {T : Type} {n : Nat}

/-- A record of `n` words of four bytes; not all words have to be those of a value. -/
def ofWords (n : Nat) (words : T → Fin n → UInt32) (value : (Fin n → UInt32) → Option T)
    (h : ∀ t, value (words t) = some t) : Codec T where
  size := 4 * n
  decode f := value fun i => le32 fun k => f (4 * i + k)
  encode t k := if hk : k / 4 < n then byte32 (words t ⟨k / 4, hk⟩) (k % 4) else 0
  decode_encode t f hf := by
    rw [← h t]
    congr 1
    funext i
    rw [← le32_byte32 (words t i)]
    refine le32_congr fun k hk => ?_
    have hi := i.isLt
    have hdiv : (4 * i + k) / 4 = i := by omega
    have hmod : (4 * i + k) % 4 = k := by omega
    rw [hf _ (by omega), dif_pos (by omega), hmod]
    exact congrArg (fun j => byte32 (words t j) k) (Fin.ext hdiv)

/-- The bytes of a block from an offset on, followed by zeros where the block ends. -/
def view (b : Fin n → UInt8) (off : Nat) : Nat → UInt8 := fun k =>
  if h : off + k < n then b ⟨off + k, h⟩ else 0

/-- The value at an offset of a block, if the bytes there are those of a value. -/
def read (c : Codec T) (b : Fin n → UInt8) (off : Nat) : Option T := c.decode (view b off)

/-- The block with a value written at an offset, and the bytes around the value as they were. -/
def write (c : Codec T) (b : Fin n → UInt8) (off : Nat) (t : T) : Fin n → UInt8 := fun i =>
  if off ≤ i ∧ i < off + c.size then c.encode t (i - off) else b i

/-- A value that fits into the block is read back. -/
theorem read_write (c : Codec T) (b : Fin n → UInt8) {off : Nat} (t : T) (h : off + c.size ≤ n) :
    c.read (c.write b off t) off = some t := by
  refine c.decode_encode t _ fun k hk => ?_
  have hlt : off + k < n := by omega
  have hin : off ≤ off + k ∧ off + k < off + c.size := by omega
  rw [view, dif_pos hlt, write, if_pos hin, Nat.add_sub_cancel_left]

/-- A record is read from its own bytes only, so that writes beside it do not change its value. -/
theorem ofWords_read_congr {m : Nat} {words : T → Fin m → UInt32}
    {value : (Fin m → UInt32) → Option T} {hv : ∀ t, value (words t) = some t}
    {b b' : Fin n → UInt8} {off : Nat}
    (h : ∀ i : Fin n, off ≤ i → i < off + 4 * m → b i = b' i) :
    (ofWords m words value hv).read b off = (ofWords m words value hv).read b' off := by
  refine congrArg value (funext fun i => le32_congr fun k hk => ?_)
  unfold view
  split
  · have hi := i.isLt
    exact h _ (Nat.le_add_right ..) (show off + (4 * i + k) < _ by omega)
  · rfl

/-- **Writing back what was read changes nothing**, for a record whose words are determined by its
value. -/
theorem ofWords_write_read {m : Nat} {words : T → Fin m → UInt32}
    {value : (Fin m → UInt32) → Option T} {hv : ∀ t, value (words t) = some t}
    (hw : ∀ w t, value w = some t → words t = w) {b : Fin n → UInt8} {off : Nat} {t : T}
    (h : (ofWords m words value hv).read b off = some t) :
    (ofWords m words value hv).write b off t = b := by
  funext i
  rw [write]
  split
  · rename_i hi
    obtain ⟨hle, hlt⟩ := hi
    replace hlt : i < off + 4 * m := hlt
    have hin := i.isLt
    have hk : (i - off) / 4 < m := by omega
    have hi' : off + (4 * ((i - off) / 4) + (i - off) % 4) = i := by omega
    show (if hk : (i - off) / 4 < m then byte32 (words t ⟨(i - off) / 4, hk⟩) ((i - off) % 4)
      else 0) = b i
    rw [dif_pos hk, hw _ t h, byte32_le32 _ (by omega), view,
      dif_pos (show off + (4 * ((i - off) / 4) + (i - off) % 4) < n by omega)]
    exact congrArg b (Fin.ext hi')
  · rfl

/-- A block of zeros reads as zeros everywhere, behind its end as well as in it. -/
theorem view_zero (off : Nat) : view (n := n) (fun _ => 0) off = fun _ => 0 := by
  funext k
  unfold view
  split <;> rfl

end Codec

end Bytes
