import Mathlib

/-!
# SV39 addresses and page numbers

The newtypes of `mm/address.rs` and their conversions; the file is the same in `phase_4_vm`,
`phase_5_fs` and `phase_6_shell`. A `usize` is a natural number, reduced modulo `2 ^ 64` by the
operations that can leave its range. Page contents are reached through slices of physical memory.
-/

namespace TinyOS

/-- `PAGE_SIZE_BITS`, the bits of an address that are the offset in its page. -/
def pageSizeBits : Nat := 12

/-- `PAGE_SIZE`: 4096 bytes, the size of a page and of a frame. -/
def pageSize : Nat := 4096

/-- `PA_WIDTH_SV39`: a physical address has 56 bits under SV39, and `PhysAddr::from` keeps no
others. -/
def paWidthSv39 : Nat := 56

/-- `VA_WIDTH_SV39`: a virtual address has 39 bits under SV39, and `VirtAddr::from` keeps no
others. -/
def vaWidthSv39 : Nat := 39

/-- `PPN_WIDTH_SV39`: the number of a frame has the 44 bits of an address above the offset. -/
def ppnWidthSv39 : Nat := paWidthSv39 - pageSizeBits

/-- `struct PhysAddr`: a physical address, as the `usize` it wraps. -/
structure PhysAddr where
  val : Nat
  deriving DecidableEq

/-- `struct VirtAddr`: a virtual address, as the `usize` it wraps. -/
structure VirtAddr where
  val : Nat
  deriving DecidableEq

/-- `struct PhysPageNum`: the number of a frame, as the `usize` it wraps. -/
structure PhysPageNum where
  val : Nat
  deriving DecidableEq

/-- `struct VirtPageNum`: the number of a page, as the `usize` it wraps. -/
structure VirtPageNum where
  val : Nat
  deriving DecidableEq

/-! ## Slices of physical memory -/

/-- What a panic of the memory management reports: the text of an `expect`, or the bounds of a
slice index. -/
inductive Panic where
  | expect (msg : String)
  | sliceIndex (start stop len : Nat)
  deriving DecidableEq

/-- A `&[u8]` or `&mut [u8]` into physical memory: where it starts and how many bytes it has. -/
structure Slice where
  addr : Nat
  len : Nat
  deriving DecidableEq

namespace Slice

/-- `&s[start..]`, which panics if the start is behind the end of the slice. -/
def rangeFrom (s : Slice) (start : Nat) : Except Panic Slice :=
  if start ≤ s.len then .ok ⟨s.addr + start, s.len - start⟩
  else .error (.sliceIndex start s.len s.len)

/-- `&s[start..stop]`, which panics if the bounds are out of order or behind the end. -/
def range (s : Slice) (start stop : Nat) : Except Panic Slice :=
  if start ≤ stop ∧ stop ≤ s.len then .ok ⟨s.addr + start, stop - start⟩
  else .error (.sliceIndex start stop s.len)

/-- The bytes of a slice in the memory `mem`, in the order of their addresses. -/
def bytes (mem : Nat → UInt8) (s : Slice) : List UInt8 := (List.range' s.addr s.len).map mem

end Slice

/-! ## Conversions -/

/-- `PhysPageNum::from(usize)`, which keeps the lower 44 bits and drops the others. -/
def PhysPageNum.ofUsize (v : Nat) : PhysPageNum := ⟨v &&& (1 <<< ppnWidthSv39 - 1)⟩

/-- `VirtAddr::from(usize)`, which keeps the lower 39 bits and drops the others. -/
def VirtAddr.ofUsize (v : Nat) : VirtAddr := ⟨v &&& (1 <<< vaWidthSv39 - 1)⟩

/-- `PhysAddr::from(PhysPageNum)`: the first address of the frame; the shift drops bits behind
the 64th. -/
def PhysAddr.ofPpn (v : PhysPageNum) : PhysAddr := ⟨(v.val <<< pageSizeBits) % 2 ^ 64⟩

/-- `VirtAddr::from(VirtPageNum)`: the first address of the page; the shift drops bits behind
the 64th. -/
def VirtAddr.ofVpn (v : VirtPageNum) : VirtAddr := ⟨(v.val <<< pageSizeBits) % 2 ^ 64⟩

namespace VirtAddr

/-- `VirtAddr::floor`: the page the address is in, whether or not it is the first of the page. -/
def floor (a : VirtAddr) : VirtPageNum := ⟨a.val / pageSize⟩

/-- `VirtAddr::ceil`: the first page that starts at the address or behind it; the sum wraps
around. -/
def ceil (a : VirtAddr) : VirtPageNum := ⟨(a.val + pageSize - 1) % 2 ^ 64 / pageSize⟩

/-- `VirtAddr::page_offset`: how far into its page the address is, in the lower twelve bits. -/
def pageOffset (a : VirtAddr) : Nat := a.val &&& (pageSize - 1)

/-- `Ord::min` of the order that is derived from the wrapped numbers. -/
def min (a b : VirtAddr) : VirtAddr := if a.val ≤ b.val then a else b

end VirtAddr

/-- `StepByOne` for `VirtPageNum`: the next page; the addition wraps around, as in a release
build. -/
def VirtPageNum.step (v : VirtPageNum) : VirtPageNum := ⟨(v.val + 1) % 2 ^ 64⟩

/-- Split the 27-bit VPN into three 9-bit indexes: `[L2, L1, L0]`. The loop runs from the last one
to the first. -/
def VirtPageNum.indexes (v : VirtPageNum) : Fin 3 → Nat :=
  ([2, 1, 0].foldl (fun (idx, vpn) i => (Function.update idx i (vpn &&& 0x1ff), vpn >>> 9))
    ((fun _ => 0 : Fin 3 → Nat), v.val)).1

/-- A range of pages. A page number is a `usize`. -/
structure VPNRange where
  l : VirtPageNum
  r : VirtPageNum
  le : l.val ≤ r.val
  lt : r.val < 2 ^ 64

namespace VPNRange

/-- `VPNRange::new`, which asserts that the range does not end before it starts. -/
def new (l r : VirtPageNum) (h : r.val < 2 ^ 64) : Except Panic VPNRange :=
  if hle : l.val ≤ r.val then .ok ⟨l, r, hle, h⟩
  else .error (.expect "assertion failed: l.0 <= r.0")

/-- `VPNRange::get_start`: the first page of the range, if the range is not empty. -/
def getStart (range : VPNRange) : VirtPageNum := range.l

/-- `VPNRange::get_end`: the page behind the last one of the range. -/
def getEnd (range : VPNRange) : VirtPageNum := range.r

end VPNRange

/-- `struct VPNRangeIter`: the next page of the range, and the page it stops before. -/
structure VPNRangeIter where
  cur : VirtPageNum
  stop : VirtPageNum

/-- `IntoIterator::into_iter`: the iterator over a range, at its first page. -/
def VPNRange.intoIter (range : VPNRange) : VPNRangeIter := ⟨range.l, range.r⟩

/-- `Iterator::next`: the current page and a step on, or nothing once the end is reached. -/
def VPNRangeIter.next (it : VPNRangeIter) : Option VirtPageNum × VPNRangeIter :=
  if it.cur.val ≥ it.stop.val then (none, it) else (some it.cur, { it with cur := it.cur.step })

/-- A loop over the iterator ends, and these are the pages it visits. -/
inductive VPNRangeIter.Visits : VPNRangeIter → List VirtPageNum → Prop
  | done {it : VPNRangeIter} (h : it.next.1 = none) : Visits it []
  | step {it : VPNRangeIter} {v : VirtPageNum} {pages : List VirtPageNum}
      (h : it.next.1 = some v) (rest : Visits it.next.2 pages) : Visits it (v :: pages)

/-- `PhysPageNum::get_bytes_array`: the 4096 bytes of the frame, from its first address on. -/
def PhysPageNum.getBytesArray (ppn : PhysPageNum) : Slice := ⟨(PhysAddr.ofPpn ppn).val, 4096⟩

/-! ## The conversions as arithmetic -/

/-- Masking with `w` ones is reduction modulo `2 ^ w`. -/
theorem and_mask (v w : Nat) : v &&& (1 <<< w - 1) = v % 2 ^ w := by
  rw [Nat.one_shiftLeft, Nat.and_two_pow_sub_one_eq_mod]

/-- A virtual address made of a number is the number modulo `2 ^ 39`. -/
theorem VirtAddr.ofUsize_val (v : Nat) : (VirtAddr.ofUsize v).val = v % 2 ^ 39 := and_mask v 39

/-- The number of a frame made of a number is that number modulo `2 ^ 44`. -/
theorem PhysPageNum.ofUsize_val (v : Nat) : (PhysPageNum.ofUsize v).val = v % 2 ^ 44 :=
  and_mask v 44

/-- Rounding up to a page gives a number of 64 bits, whatever the address. -/
theorem VirtAddr.ceil_lt (a : VirtAddr) : a.ceil.val < 2 ^ 64 := by
  have hlt : (a.val + pageSize - 1) % 2 ^ 64 < 2 ^ 64 := Nat.mod_lt _ (by decide)
  exact Nat.lt_of_le_of_lt (Nat.div_le_self _ _) hlt

/-- Away from the end of the address space, `ceil` is division with rounding up. -/
theorem VirtAddr.ceil_val {a : VirtAddr} (h : a.val + 4095 < 2 ^ 64) :
    a.ceil.val = (a.val + 4095) / 4096 := by
  show (a.val + 4095) % 2 ^ 64 / 4096 = _
  rw [Nat.mod_eq_of_lt h]

/-- The offset in the page is the remainder modulo the page size. -/
theorem VirtAddr.pageOffset_eq (a : VirtAddr) : a.pageOffset = a.val % 4096 :=
  Nat.and_two_pow_sub_one_eq_mod a.val 12

/-- **An address is its page and its offset.** Nothing of it is lost when it is taken apart. -/
theorem VirtAddr.floor_add_pageOffset (a : VirtAddr) :
    a.floor.val * 4096 + a.pageOffset = a.val := by
  rw [pageOffset_eq, floor, pageSize]
  exact Nat.div_add_mod' a.val 4096

/-- The indexes as the digits of the page number, nine bits each and the highest one first. -/
theorem VirtPageNum.indexes_eq (v : VirtPageNum) :
    v.indexes = ![v.val / 2 ^ 18 % 512, v.val / 2 ^ 9 % 512, v.val % 512] := by
  have hand (n : Nat) : n &&& 511 = n % 512 := Nat.and_two_pow_sub_one_eq_mod n 9
  funext i
  fin_cases i <;>
    simp [indexes, Function.update, hand, Nat.shiftRight_eq_div_pow, Nat.div_div_eq_div_mul]

/-- The indexes of a 27-bit page number determine it, so that distinct pages have distinct ways
through the tables. -/
theorem VirtPageNum.val_eq_indexes {v : VirtPageNum} (h : v.val < 2 ^ 27) :
    v.val = v.indexes 0 * 2 ^ 18 + v.indexes 1 * 2 ^ 9 + v.indexes 2 := by
  rw [v.indexes_eq]
  simp only [Matrix.cons_val]
  omega

/-- The smaller of two addresses, as numbers: what `Ord::min` of addresses returns. -/
theorem VirtAddr.min_val (a b : VirtAddr) : (a.min b).val = Min.min a.val b.val := by
  unfold VirtAddr.min
  split
  · rw [min_eq_left ‹_›]
  · rw [min_eq_right (by omega)]

/-! ## Loops over a range -/

/-- A loop from page `l` visits the next `n` pages. -/
theorem VPNRangeIter.visits_add {l n : Nat} (h : l + n < 2 ^ 64) :
    Visits ⟨⟨l⟩, ⟨l + n⟩⟩ ((List.range' l n).map VirtPageNum.mk) := by
  induction n generalizing l with
  | zero => exact .done (by simp [next])
  | succ n ih =>
    have hnext : next ⟨⟨l⟩, ⟨l + (n + 1)⟩⟩ = (some ⟨l⟩, ⟨⟨l + 1⟩, ⟨l + (n + 1)⟩⟩) := by
      rw [next, if_neg (by simp), VirtPageNum.step]
      simp only [Nat.mod_eq_of_lt (show l + 1 < 2 ^ 64 by omega)]
    rw [List.range'_succ, List.map_cons]
    refine .step (by rw [hnext]) ?_
    rw [hnext, show l + (n + 1) = l + 1 + n by omega]
    exact ih (by omega)

/-- **A loop over a range** visits its pages in ascending order. -/
theorem VPNRange.visits (range : VPNRange) : VPNRangeIter.Visits range.intoIter
    ((List.range' range.l.val (range.r.val - range.l.val)).map VirtPageNum.mk) := by
  have hle := range.le
  have hend : range.l.val + (range.r.val - range.l.val) = range.r.val := by omega
  have hvisits := @VPNRangeIter.visits_add range.l.val (range.r.val - range.l.val)
    (by rw [hend]; exact range.lt)
  rwa [hend] at hvisits

/-- There is one way to run the loop: the iterator determines the pages it visits. -/
theorem VPNRangeIter.Visits.unique {it : VPNRangeIter} {pages pages' : List VirtPageNum}
    (h : Visits it pages) (h' : Visits it pages') : pages = pages' := by
  induction h generalizing pages' with
  | done h =>
    cases h' with
    | done _ => rfl
    | step h' _ => cases h.symm.trans h'
  | step h _ ih =>
    cases h' with
    | done h' => cases h.symm.trans h'
    | step h' rest =>
      cases h.symm.trans h'
      rw [ih rest]

/-- The first address of a page is its number times the page size, where no bit is dropped. -/
theorem VirtAddr.ofVpn_val {v : VirtPageNum} (h : v.val < 2 ^ 52) :
    (VirtAddr.ofVpn v).val = v.val * 4096 := by
  rw [VirtAddr.ofVpn, pageSizeBits, Nat.shiftLeft_eq, Nat.mod_eq_of_lt (by omega)]

/-- The first address of a frame is its number times the page size, where no bit is dropped. -/
theorem PhysAddr.ofPpn_val {v : PhysPageNum} (h : v.val < 2 ^ 52) :
    (PhysAddr.ofPpn v).val = v.val * 4096 := by
  rw [PhysAddr.ofPpn, pageSizeBits, Nat.shiftLeft_eq, Nat.mod_eq_of_lt (by omega)]

end TinyOS
