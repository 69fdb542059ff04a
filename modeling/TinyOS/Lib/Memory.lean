import Mathlib

/-!
# Byte memory and 64-bit words

A memory maps 64-bit addresses to bytes. `load64` and `store64` are the little-endian accesses of a
64-bit word; both wrap around at the end of the address space, so no alignment or bound is assumed.
A load sees the last store to the same address, and no store to an address at least eight bytes
away in both directions. `slot p i` is the `i`-th word of an array of words at `p`: two slots of
one array are that far apart.
-/

namespace Memory

/-- A byte of memory, as a bit vector. -/
abbrev Byte := BitVec 8

/-- A 64-bit word, the contents of a register. -/
abbrev Word := BitVec 64

/-- An address: arithmetic on it wraps around at the end of the address space. -/
abbrev Addr := BitVec 64

/-- A byte-addressed memory, with a byte at each of the 64-bit addresses. -/
abbrev Mem := Addr → Byte

/-- The word at `a`, its least significant byte first, from the eight addresses from `a` on. -/
def load64 (m : Mem) (a : Addr) : Word :=
  m (a + 7) ++ m (a + 6) ++ m (a + 5) ++ m (a + 4) ++ m (a + 3) ++ m (a + 2) ++ m (a + 1) ++
    m (a + 0)

/-- Store the word `w` at `a`, its least significant byte first. -/
def store64 (m : Mem) (a : Addr) (w : Word) : Mem := fun b =>
  if (b - a).toNat < 8 then w.extractLsb' (8 * (b - a).toNat) 8 else m b

/-- The `i`-th word of an array of words at `p`. -/
def slot (p : Addr) (i : Nat) : Addr := p + BitVec.ofNat 64 (8 * i)

/-- The eight bytes a store writes are the eight bytes from its address on. -/
theorem store64_of_le {m : Mem} {a b : Addr} {w : Word} (h : 8 ≤ (b - a).toNat) :
    store64 m a w b = m b := if_neg (by omega)

/-- Bit `k` of a word is bit `k % 8` of its byte `k / 8`. -/
theorem getLsbD_load64 (m : Mem) (a : Addr) {k : Nat} (hk : k < 64) :
    (load64 m a).getLsbD k = (m (a + BitVec.ofNat 64 (k / 8))).getLsbD (k % 8) := by
  have h : ∀ n < 8, k / 8 = n → (load64 m a).getLsbD k =
      (m (a + BitVec.ofNat 64 n)).getLsbD (k - 8 * n) := by
    intro n hn hkn
    unfold load64
    simp only [BitVec.getLsbD_append]
    interval_cases n <;> simp (disch := omega) only [if_pos, if_neg, Nat.sub_sub] <;> rfl
  rw [h (k / 8) (by omega) rfl]
  congr 1
  omega

/-- A loaded word depends on its eight bytes only, whatever else is in memory. -/
theorem load64_congr {m m' : Mem} {a : Addr}
    (h : ∀ j, j < 8 → m (a + BitVec.ofNat 64 j) = m' (a + BitVec.ofNat 64 j)) :
    load64 m a = load64 m' a := by
  refine BitVec.eq_of_getLsbD_eq fun k hk => ?_
  rw [getLsbD_load64 m a hk, getLsbD_load64 m' a hk, h (k / 8) (by omega)]

/-- A load sees the last store to its address, all 64 bits of it. -/
@[simp] theorem load64_store64_self (m : Mem) (a : Addr) (w : Word) :
    load64 (store64 m a w) a = w := by
  refine BitVec.eq_of_getLsbD_eq fun k hk => ?_
  have hd : (a + BitVec.ofNat 64 (k / 8) - a).toNat = k / 8 := by
    rw [BitVec.add_comm, BitVec.add_sub_cancel, BitVec.toNat_ofNat, Nat.mod_eq_of_lt (by omega)]
  rw [getLsbD_load64 _ _ hk, store64, hd, if_pos (by omega), BitVec.getLsbD_extractLsb']
  simp only [show k % 8 < 8 by omega, decide_true, Bool.true_and]
  congr 1
  omega

/-- A load does not see a store eight bytes or more away. -/
theorem load64_store64_of_le {m : Mem} {a b : Addr} {w : Word} (h : 8 ≤ (b - a).toNat)
    (h' : 8 ≤ (a - b).toNat) : load64 (store64 m a w) b = load64 m b := by
  refine load64_congr fun j hj => store64_of_le ?_
  have := BitVec.toNat_sub a b
  have := BitVec.toNat_sub b a
  rw [BitVec.toNat_sub, BitVec.toNat_add, BitVec.toNat_ofNat, Nat.mod_eq_of_lt (a := j) (by omega)]
  have := a.isLt
  have := b.isLt
  omega

/-- The `n` bytes at `p` and the `k` bytes at `q` do not overlap, also not around the end of the
address space. -/
def Apart (p : Addr) (n : Nat) (q : Addr) (k : Nat) : Prop :=
  n ≤ (q - p).toNat ∧ k ≤ (p - q).toNat

/-- Whether two ranges are apart can be evaluated. -/
instance (p : Addr) (n : Nat) (q : Addr) (k : Nat) : Decidable (Apart p n q k) :=
  inferInstanceAs (Decidable (_ ∧ _))

/-- A byte of the one region is beyond the other. -/
theorem Apart.le_byte {p q : Addr} {n k j : Nat} (h : Apart p n q k) (hj : j < k) :
    n ≤ (q + BitVec.ofNat 64 j - p).toNat := by
  obtain ⟨h1, h2⟩ := h
  rw [BitVec.toNat_sub] at h1 h2
  have := p.isLt
  have := q.isLt
  rw [BitVec.toNat_sub, BitVec.toNat_add, BitVec.toNat_ofNat, Nat.mod_eq_of_lt (a := j) (by omega)]
  omega

/-- Regions that do not overlap start at different addresses, if the first of them is not empty. -/
theorem Apart.ne {p q : Addr} {n k : Nat} (h : Apart p n q k) (hn : 0 < n) : p ≠ q := by
  rintro rfl
  have h1 := h.1
  rw [BitVec.sub_self, BitVec.toNat_zero] at h1
  omega

/-- The offset of one slot of an array from another, in both directions round the address space. -/
theorem slot_sub_slot {p : Addr} {i j : Nat} (hi : i < 2 ^ 32) (hj : j < i) :
    (slot p i - slot p j).toNat = 8 * (i - j) ∧
      (slot p j - slot p i).toNat = 2 ^ 64 - 8 * (i - j) := by
  unfold slot
  have := p.isLt
  constructor <;>
  · rw [BitVec.toNat_sub, BitVec.toNat_add, BitVec.toNat_add, BitVec.toNat_ofNat,
      BitVec.toNat_ofNat, Nat.mod_eq_of_lt (a := 8 * i) (by omega),
      Nat.mod_eq_of_lt (a := 8 * j) (by omega)]
    omega

/-- **Slots do not overlap.** A store to one slot of an array is seen there and nowhere else in
the array. -/
theorem load64_store64_slot (m : Mem) (p : Addr) (w : Word) {i j : Nat} (hi : i < 2 ^ 32)
    (hj : j < 2 ^ 32) :
    load64 (store64 m (slot p i) w) (slot p j) = if j = i then w else load64 m (slot p j) := by
  split
  · next h => rw [h, load64_store64_self]
  · next h =>
    rcases Nat.lt_or_gt_of_ne h with hlt | hgt
    · have := slot_sub_slot (p := p) hi hlt
      exact load64_store64_of_le (by omega) (by omega)
    · have := slot_sub_slot (p := p) hj hgt
      exact load64_store64_of_le (by omega) (by omega)

/-- A store to slot `i` of an array of `n` words at `p` writes inside the array. -/
theorem store64_slot_of_outside {m : Mem} {p a : Addr} {w : Word} {i n : Nat} (hi : i < n)
    (hn : n < 2 ^ 32) (h : 8 * n ≤ (a - p).toNat) : store64 m (slot p i) w a = m a := by
  refine store64_of_le ?_
  have := BitVec.toNat_sub a p
  have := a.isLt
  have := p.isLt
  rw [slot, BitVec.toNat_sub, BitVec.toNat_add, BitVec.toNat_ofNat,
    Nat.mod_eq_of_lt (a := 8 * i) (by omega)]
  omega

/-! ## Arrays of words -/

/-- Store `f 0`, …, `f (n - 1)` to the first `n` slots of the array at `p`. -/
def storeWords (m : Mem) (p : Addr) (n : Nat) (f : Nat → Word) : Mem :=
  (List.range n).foldl (fun m i => store64 m (slot p i) (f i)) m

/-- Storing one more word is storing the words before it and then this one. -/
theorem storeWords_succ (m : Mem) (p : Addr) (n : Nat) (f : Nat → Word) :
    storeWords m p (n + 1) f = store64 (storeWords m p n f) (slot p n) (f n) := by
  rw [storeWords, List.range_succ, List.foldl_append]; rfl

/-- Every word of an array that was stored is read back from its slot. -/
theorem load64_storeWords (m : Mem) (p : Addr) (f : Nat → Word) {n j : Nat} (hn : n < 2 ^ 32)
    (hj : j < n) : load64 (storeWords m p n f) (slot p j) = f j := by
  induction n with
  | zero => exact absurd hj (Nat.not_lt_zero j)
  | succ n ih =>
    rw [storeWords_succ, load64_store64_slot _ _ _ (by omega) (by omega)]
    split
    · next h => rw [h]
    · exact ih (by omega) (by omega)

/-- Storing `n` words changes only the `8 * n` bytes of the array. -/
theorem storeWords_of_outside (m : Mem) {p a : Addr} (f : Nat → Word) {n : Nat} (hn : n < 2 ^ 32)
    (h : 8 * n ≤ (a - p).toNat) : storeWords m p n f a = m a := by
  induction n with
  | zero => rfl
  | succ n ih =>
    rw [storeWords_succ, store64_slot_of_outside (Nat.lt_succ_self n) hn h,
      ih (by omega) (by omega)]

/-- A word of an array keeps its value where the memory of the array does. -/
theorem load64_slot_congr {m m' : Mem} {p : Addr} {n i : Nat} (hi : i < n)
    (h : ∀ j, j < 8 * n → m (p + BitVec.ofNat 64 j) = m' (p + BitVec.ofNat 64 j)) :
    load64 m (slot p i) = load64 m' (slot p i) := by
  refine load64_congr fun j hj => ?_
  have := h (8 * i + j) (by omega)
  rwa [BitVec.ofNat_add, ← BitVec.add_assoc] at this

end Memory
