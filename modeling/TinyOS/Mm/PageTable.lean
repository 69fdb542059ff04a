import TinyOS.Lib.Paging
import TinyOS.Mm.Address

/-!
# Page tables and the walk over a user buffer

`PageTableEntry`, the view `PageTable::from_token` and `translated_byte_buffer` of
`mm/page_table.rs` (the same file in `phase_4_vm`, `phase_5_fs` and `phase_6_shell`).
`PageTable::translate` is an exercise of the course and has no code: it is a parameter.

The main results are `sv39_lossless`, that the encodings lose nothing within their widths, and
`translatedByteBuffer_exact`: below `2 ^ 39` and on mapped pages, the loop cuts the buffer at the
page boundaries exactly as `Paging.cut` does.
-/

namespace TinyOS

open Paging

/-- `struct PTEFlags`: the flags of a page-table entry, one bit each. -/
structure PTEFlags where
  bits : UInt8
  deriving DecidableEq

namespace PTEFlags

/-- The flag `V`: the entry is valid, and the walk may go on with it. -/
def v : PTEFlags := ⟨(1 : UInt8) <<< 0⟩

/-- The flag `R`: the page may be read. -/
def r : PTEFlags := ⟨(1 : UInt8) <<< 1⟩

/-- The flag `W`: the page may be written. -/
def w : PTEFlags := ⟨(1 : UInt8) <<< 2⟩

/-- The flag `X`: code may be executed from the page. -/
def x : PTEFlags := ⟨(1 : UInt8) <<< 3⟩

/-- The flag `U`: the page is accessible in user mode. -/
def u : PTEFlags := ⟨(1 : UInt8) <<< 4⟩

/-- `PTEFlags::empty()`: no flag at all. -/
def empty : PTEFlags := ⟨0⟩

/-- The operator `|` of flags: those that are in one or the other. -/
def union (f g : PTEFlags) : PTEFlags := ⟨f.bits ||| g.bits⟩

/-- The operator `&` of flags: those that are in both. -/
def intersection (f g : PTEFlags) : PTEFlags := ⟨f.bits &&& g.bits⟩

end PTEFlags

/-- `struct PageTableEntry`: 64 bits, with the number of a frame above the flags. -/
structure PageTableEntry where
  bits : Nat

/-- `PageTableEntry::new`: the number of the frame, shifted above ten bits, and the flags. -/
def PageTableEntry.new (ppn : PhysPageNum) (flags : PTEFlags) : PageTableEntry :=
  ⟨(ppn.val <<< 10) % 2 ^ 64 ||| flags.bits.toNat⟩

/-- `flags`. Every bit of the byte is a flag, so `from_bits_truncate` keeps all. -/
def PageTableEntry.flags (pte : PageTableEntry) : PTEFlags := ⟨.ofNat pte.bits⟩

/-- The entry has the flag `U`: user code may access the page. -/
def PageTableEntry.IsUser (pte : PageTableEntry) : Prop := pte.flags.bits &&& PTEFlags.u.bits ≠ 0

/-- Whether an entry has the flag can be evaluated. -/
instance (pte : PageTableEntry) : Decidable pte.IsUser := inferInstanceAs (Decidable (_ ≠ _))

/-- `PageTableEntry::ppn`: the 44 bits above the lower ten, as the number of a frame. -/
def PageTableEntry.ppn (pte : PageTableEntry) : PhysPageNum :=
  .ofUsize ((pte.bits >>> 10) &&& (1 <<< 44 - 1))

/-- `(self.flags() & flag) != PTEFlags::empty()`, which the four tests of a flag have in common. -/
def PageTableEntry.has (pte : PageTableEntry) (flag : PTEFlags) : Bool :=
  pte.flags.intersection flag != .empty

/-- `PageTableEntry::is_valid`, the test of the flag `V`, as the walk makes it. -/
def PageTableEntry.isValid (pte : PageTableEntry) : Bool := pte.has .v

/-- `PageTableEntry::readable`, the test of the flag `R`. -/
def PageTableEntry.readable (pte : PageTableEntry) : Bool := pte.has .r

/-- `PageTableEntry::writable`, the test of the flag `W`. -/
def PageTableEntry.writable (pte : PageTableEntry) : Bool := pte.has .w

/-- `PageTableEntry::executable`, the test of the flag `X`. -/
def PageTableEntry.executable (pte : PageTableEntry) : Bool := pte.has .x

/-- `struct FrameTracker`: the owner of a frame, which it gives back when it is dropped. -/
structure FrameTracker where
  ppn : PhysPageNum

/-- `struct PageTable`: the frame of its root, and the frames it owns. -/
structure PageTable where
  rootPpn : PhysPageNum
  frames : List FrameTracker

/-- `PageTable::from_token`: a view of the page table of another address space, which owns no
frames. -/
def PageTable.fromToken (satp : Nat) : PageTable :=
  ⟨.ofUsize (satp &&& (1 <<< 44 - 1)), []⟩

/-- The value for `satp`: the mode SV39 and the root frame. -/
def PageTable.token (pageTable : PageTable) : Nat :=
  (8 <<< 60) % 2 ^ 64 ||| pageTable.rootPpn.val

/-- The number of the frame in an entry has at most 44 bits. -/
theorem PageTableEntry.ppn_lt (pte : PageTableEntry) : pte.ppn.val < 2 ^ 44 := by
  rw [PageTableEntry.ppn, PhysPageNum.ofUsize_val]
  exact Nat.mod_lt _ (by decide)

/-- The frame of an entry starts at `ppn * 4096`. -/
theorem PageTableEntry.getBytesArray_ppn (pte : PageTableEntry) :
    pte.ppn.getBytesArray = ⟨pte.ppn.val * 4096, 4096⟩ := by
  have := pte.ppn_lt
  rw [PhysPageNum.getBytesArray, PhysAddr.ofPpn_val (by omega)]

/-! ## Encodings -/

section

variable {ppn : PhysPageNum} {flags : PTEFlags}

/-- A number of at most 44 bits is kept as it is. -/
theorem PhysPageNum.ofUsize_of_lt {n : Nat} (h : n < 2 ^ 44) : ofUsize n = ⟨n⟩ := by
  rw [ofUsize, ppnWidthSv39, paWidthSv39, pageSizeBits, and_mask, Nat.mod_eq_of_lt h]

/-- The page number stands above ten bits, the flags in the lower eight of these. -/
theorem PageTableEntry.new_bits (h : ppn.val < 2 ^ 44) :
    (new ppn flags).bits = ppn.val * 2 ^ 10 + flags.bits.toNat := by
  have hflags : flags.bits.toNat < 2 ^ 10 := Nat.lt_trans flags.bits.toNat_lt (by decide)
  have hppn : ppn.val <<< 10 < 2 ^ 64 := by
    rw [Nat.shiftLeft_eq]
    omega
  rw [new, Nat.mod_eq_of_lt hppn, ← Nat.shiftLeft_add_eq_or_of_lt hflags, Nat.shiftLeft_eq]

/-- The number of the frame is read back from an entry made of it. -/
theorem PageTableEntry.new_ppn (h : ppn.val < 2 ^ 44) : (new ppn flags).ppn = ppn := by
  have hflags := flags.bits.toNat_lt
  have hbits : (ppn.val * 2 ^ 10 + flags.bits.toNat) / 2 ^ 10 = ppn.val := by omega
  rw [PageTableEntry.ppn, new_bits h, and_mask, Nat.shiftRight_eq_div_pow, hbits,
    Nat.mod_eq_of_lt h, PhysPageNum.ofUsize_of_lt h]

/-- The flags are read back from an entry made of them. -/
theorem PageTableEntry.new_flags (h : ppn.val < 2 ^ 44) : (new ppn flags).flags = flags := by
  have hflags := flags.bits.toNat_lt
  rw [PageTableEntry.flags, new_bits h]
  refine congrArg PTEFlags.mk (UInt8.toNat_inj.mp ?_)
  rw [UInt8.toNat_ofNat']
  omega

/-- A flag that is one bit is tested by this bit. -/
theorem PageTableEntry.has_eq (pte : PageTableEntry) {flag : PTEFlags} {i : Nat}
    (hflag : flag.bits.toNat = 2 ^ i) : pte.has flag = pte.flags.bits.toNat.testBit i := by
  have hand : (pte.flags.bits &&& flag.bits).toNat =
      (pte.flags.bits.toNat.testBit i).toNat * 2 ^ i := by
    rw [UInt8.toNat_and, hflag, Nat.and_two_pow]
  have hempty : pte.flags.intersection flag = .empty ↔
      (pte.flags.bits &&& flag.bits).toNat = 0 := by
    rw [PTEFlags.intersection, PTEFlags.empty, PTEFlags.mk.injEq, ← UInt8.toNat_inj]
    rfl
  rw [Bool.eq_iff_iff, has, bne_iff_ne, ne_eq, hempty, hand]
  cases pte.flags.bits.toNat.testBit i with
  | true => simp
  | false => simp

/-- The root frame is read back from the token of a page table. -/
theorem PageTable.fromToken_token {pageTable : PageTable} (h : pageTable.rootPpn.val < 2 ^ 44) :
    (fromToken pageTable.token).rootPpn = pageTable.rootPpn := by
  have hmode : (8 <<< 60) % 2 ^ 64 = 2 ^ 19 <<< 44 := by decide
  have htoken : pageTable.token = 2 ^ 19 * 2 ^ 44 + pageTable.rootPpn.val := by
    rw [token, hmode, ← Nat.shiftLeft_add_eq_or_of_lt h, Nat.shiftLeft_eq]
  have hmod : (2 ^ 19 * 2 ^ 44 + pageTable.rootPpn.val) % 2 ^ 44 = pageTable.rootPpn.val := by
    omega
  rw [fromToken, htoken, and_mask, hmod, PhysPageNum.ofUsize_of_lt h]

/-- **The encodings of SV39 lose nothing.** A page number of 44 bits and any flags are read back
from an entry, whose upper ten bits are zero and whose predicates are those of the flags; the root
frame is read back from the token; the three indexes of a page number of 27 bits are its digits to
the base 512; and an address is reduced to 39 bits, page and offset together. -/
theorem sv39_lossless :
    (∀ (ppn : PhysPageNum) (flags : PTEFlags), ppn.val < 2 ^ 44 →
      let pte := PageTableEntry.new ppn flags
      pte.ppn = ppn ∧ pte.flags = flags ∧ (∀ i, 54 ≤ i → pte.bits.testBit i = false) ∧
        pte.isValid = flags.bits.toNat.testBit 0 ∧ pte.readable = flags.bits.toNat.testBit 1 ∧
        pte.writable = flags.bits.toNat.testBit 2 ∧
        pte.executable = flags.bits.toNat.testBit 3) ∧
    (∀ pageTable : PageTable, pageTable.rootPpn.val < 2 ^ 44 →
      (PageTable.fromToken pageTable.token).rootPpn = pageTable.rootPpn) ∧
    (∀ v : VirtPageNum, v.val < 2 ^ 27 → (∀ i, v.indexes i < 512) ∧
      v.val = v.indexes 0 * 2 ^ 18 + v.indexes 1 * 2 ^ 9 + v.indexes 2) ∧
    (∀ v w : VirtPageNum, v.val < 2 ^ 27 → w.val < 2 ^ 27 → v.indexes = w.indexes → v = w) ∧
    ∀ a, (VirtAddr.ofUsize a).floor.val * 4096 + (VirtAddr.ofUsize a).pageOffset = a % 2 ^ 39 := by
  refine ⟨fun ppn flags h => ?_, fun pageTable h => PageTable.fromToken_token h,
    fun v hv => ⟨fun i => ?_, v.val_eq_indexes hv⟩, fun v w hv hw heq => ?_, fun a => ?_⟩
  · have hflags := flags.bits.toNat_lt
    refine ⟨PageTableEntry.new_ppn h, PageTableEntry.new_flags h, fun i hi => ?_, ?_, ?_, ?_, ?_⟩
    · refine Nat.testBit_lt_two_pow (Nat.lt_of_lt_of_le ?_ (Nat.pow_le_pow_right (by decide) hi))
      rw [PageTableEntry.new_bits h]
      omega
    all_goals
      refine (PageTableEntry.has_eq _ ?_).trans (by rw [PageTableEntry.new_flags h])
      rfl
  · rw [v.indexes_eq]
    fin_cases i
    all_goals exact Nat.mod_lt _ (by decide)
  · have hval : v.val = w.val := by
      rw [v.val_eq_indexes hv, w.val_eq_indexes hw, heq]
    exact VirtPageNum.mk.injEq .. ▸ hval
  · rw [VirtAddr.floor_add_pageOffset, VirtAddr.ofUsize_val]

/-- The entry that maps a page to the last frame, with all flags. -/
theorem sv39_lossless_last : (PageTableEntry.new ⟨2 ^ 44 - 1⟩ ⟨255⟩).ppn.val = 2 ^ 44 - 1 ∧
    (PageTableEntry.new ⟨2 ^ 44 - 1⟩ ⟨255⟩).writable = true := by
  obtain ⟨hppn, -, -, -, -, hwritable, -⟩ := sv39_lossless.1 ⟨2 ^ 44 - 1⟩ ⟨255⟩ (by decide)
  exact ⟨congrArg PhysPageNum.val hppn, hwritable⟩

end

section

variable (translate : PageTable → VirtPageNum → Option PageTableEntry) (pageTable : PageTable)

/-! ## The walk -/

/-- One iteration of the loop of `translated_byte_buffer`: the slice it pushes and the new
`start`. -/
def bufferStep (start stop : Nat) : Except Panic (Slice × Nat) := do
  let startVa := VirtAddr.ofUsize start
  let vpn := startVa.floor
  let ppn ← match translate pageTable vpn with
    | some pte => .ok pte.ppn
    | none => .error (.expect "bad user ptr")
  let endVa := (VirtAddr.ofVpn vpn.step).min (VirtAddr.ofUsize stop)
  let slice ←
    if endVa.pageOffset = 0 then ppn.getBytesArray.rangeFrom startVa.pageOffset
    else ppn.getBytesArray.range startVa.pageOffset endVa.pageOffset
  return (slice, endVa.val)

/-- The loop. `none` if it has not ended after `fuel` tests of its condition. -/
def bufferLoop (stop : Nat) : Nat → Nat → List Slice → Option (Except Panic (List Slice))
  | 0, _, _ => none
  | fuel + 1, start, v =>
    if start < stop then
      match bufferStep translate pageTable start stop with
      | .error e => some (.error e)
      | .ok (slice, next) => bufferLoop stop fuel next (v ++ [slice])
    else some (.ok v)

/-- `translated_byte_buffer`: the slices of a user's buffer. `none` if the walk has not ended
after `fuel` iterations. -/
def translatedByteBuffer (fuel token ptr len : Nat) : Option (Except Panic (List Slice)) :=
  bufferLoop translate (.fromToken token) ((ptr + len) % 2 ^ 64) fuel ptr []

/-- The byte a user program finds at virtual address `va`. -/
def userByte (mem : Nat → UInt8) (va : Nat) : Option UInt8 :=
  (translate pageTable ⟨va / 4096⟩).map fun pte => mem (pte.ppn.val * 4096 + va % 4096)

/-- The slice of physical memory behind the virtual addresses `[c.1, c.2)` of one page. -/
def Backs (c : Nat × Nat) (s : Slice) : Prop :=
  ∃ pte, translate pageTable ⟨c.1 / 4096⟩ = some pte ∧
    s = ⟨pte.ppn.val * 4096 + c.1 % 4096, c.2 - c.1⟩

/-- The slice is a nonempty part of the frame that page `p` is mapped to. -/
def InFrameOf (p : Nat) (s : Slice) : Prop :=
  0 < s.len ∧ ∃ pte, translate pageTable ⟨p⟩ = some pte ∧
    pte.ppn.val * 4096 ≤ s.addr ∧ s.addr + s.len ≤ pte.ppn.val * 4096 + 4096

variable {translate pageTable}

/-- An iteration on a page that is not mapped panics with the text of the `expect`. -/
theorem bufferStep_of_unmapped {start stop : Nat}
    (h : translate pageTable ⟨start % 2 ^ 39 / 4096⟩ = none) :
    bufferStep translate pageTable start stop = .error (.expect "bad user ptr") := by
  have hfloor : (VirtAddr.ofUsize start).floor = ⟨start % 2 ^ 39 / 4096⟩ := by
    rw [VirtAddr.floor, VirtAddr.ofUsize_val, pageSize]
  simp only [bufferStep, hfloor, h]
  rfl

/-- An iteration on a mapped page. The loop compares 64-bit numbers, but `start` and `stop` are
reduced to 39 bits here. -/
theorem bufferStep_of_mapped {start stop a z : Nat} {pte : PageTableEntry}
    (ha : start % 2 ^ 39 = a) (hz : min (pageEnd 4096 a) (stop % 2 ^ 39) = z)
    (h : translate pageTable ⟨a / 4096⟩ = some pte) :
    bufferStep translate pageTable start stop =
      if z % 4096 = 0 then .ok (⟨pte.ppn.val * 4096 + a % 4096, 4096 - a % 4096⟩, z)
      else if a % 4096 ≤ z % 4096 then
        .ok (⟨pte.ppn.val * 4096 + a % 4096, z % 4096 - a % 4096⟩, z)
      else .error (.sliceIndex (a % 4096) (z % 4096) 4096) := by
  have hlt : a < 2 ^ 39 := ha ▸ Nat.mod_lt _ (by decide)
  have hstart : (VirtAddr.ofUsize start).val = a := by rw [VirtAddr.ofUsize_val, ha]
  have hfloor : (VirtAddr.ofUsize start).floor = ⟨a / 4096⟩ := by
    rw [VirtAddr.floor, hstart, pageSize]
  have hnext : (VirtAddr.ofVpn (VirtPageNum.step ⟨a / 4096⟩)).val = pageEnd 4096 a := by
    have hstep : (VirtPageNum.step ⟨a / 4096⟩).val = a / 4096 + 1 :=
      Nat.mod_eq_of_lt (show a / 4096 + 1 < 2 ^ 64 by omega)
    rw [VirtAddr.ofVpn_val (by omega), hstep, pageEnd]
  have hend : ((VirtAddr.ofVpn (VirtPageNum.step ⟨a / 4096⟩)).min (VirtAddr.ofUsize stop)).val =
      z := by
    rw [VirtAddr.min_val, hnext, VirtAddr.ofUsize_val, hz]
  simp only [bufferStep, hfloor, h, VirtAddr.pageOffset_eq, hend, hstart, pte.getBytesArray_ppn,
    bind, Except.bind, pure, Except.pure]
  split
  · rw [Slice.rangeFrom, if_pos (by simp only; omega)]
  · rw [Slice.range]
    by_cases hle : a % 4096 ≤ z % 4096
    · rw [if_pos ⟨hle, by simp only; omega⟩, if_pos hle]
    · rw [if_neg fun h => hle h.1, if_neg hle]

/-- **One iteration.** On a mapped page below `2 ^ 39` the iteration pushes the slice behind the
next piece of the range and moves on to the piece's end. -/
theorem bufferStep_eq {start stop : Nat} {pte : PageTableEntry} (h : start < stop)
    (hstop : stop < 2 ^ 39) (hpte : translate pageTable ⟨start / 4096⟩ = some pte) :
    bufferStep translate pageTable start stop =
      .ok (⟨pte.ppn.val * 4096 + start % 4096, min (pageEnd 4096 start) stop - start⟩,
        min (pageEnd 4096 start) stop) := by
  have hpage : pageEnd 4096 start = (start / 4096 + 1) * 4096 := rfl
  rw [bufferStep_of_mapped (Nat.mod_eq_of_lt (by omega)) (by rw [Nat.mod_eq_of_lt hstop]) hpte]
  split
  · simp only [Except.ok.injEq, Prod.mk.injEq, Slice.mk.injEq, true_and, and_true]
    omega
  · rw [if_pos (by omega)]
    simp only [Except.ok.injEq, Prod.mk.injEq, Slice.mk.injEq, true_and, and_true]
    omega

/-- **The loop.** From any `start`, more fuel than there are pieces left gives the slices pushed
so far followed by the slices behind the pieces. -/
theorem bufferLoop_eq {stop : Nat} (hstop : stop < 2 ^ 39) (start : Nat)
    (hmap : ∀ c ∈ cut 4096 start stop, ∃ pte, translate pageTable ⟨c.1 / 4096⟩ = some pte) :
    ∃ w, List.Forall₂ (Backs translate pageTable) (cut 4096 start stop) w ∧
      ∀ fuel v, (cut 4096 start stop).length < fuel →
        bufferLoop translate pageTable stop fuel start v = some (.ok (v ++ w)) := by
  fun_induction cut 4096 start stop with
  | case1 start h ih =>
    obtain ⟨pte, hpte⟩ := hmap _ List.mem_cons_self
    obtain ⟨w, hw, hloop⟩ := ih fun c hc => hmap c (List.mem_cons_of_mem _ hc)
    refine ⟨_ :: w, .cons ⟨pte, hpte, rfl⟩ hw, fun fuel v hfuel => ?_⟩
    cases fuel with
    | zero => exact absurd hfuel (Nat.not_lt_zero _)
    | succ fuel =>
      rw [bufferLoop, if_pos h.1, bufferStep_eq h.1 hstop hpte]
      dsimp only
      rw [hloop fuel _ (Nat.lt_of_succ_lt_succ hfuel), List.append_assoc, List.singleton_append]
  | case2 start h =>
    refine ⟨[], .nil, fun fuel v hfuel => ?_⟩
    cases fuel with
    | zero => exact absurd hfuel (Nat.not_lt_zero _)
    | succ fuel => rw [bufferLoop, if_neg fun h' => h ⟨h', by decide⟩, List.append_nil]

/-- The slice behind a piece of a page is in the page's frame. -/
theorem Backs.inFrameOf {a b : Nat} {c : Nat × Nat} {s : Slice}
    (h : Backs translate pageTable c s) (hc : c ∈ cut 4096 a b) :
    InFrameOf translate pageTable (c.1 / 4096) s := by
  obtain ⟨pte, hpte, rfl⟩ := h
  obtain ⟨-, hlt, -, hle⟩ := mem_cut hc
  rw [pageEnd] at hle
  exact ⟨by dsimp only; omega, pte, hpte, by dsimp only; omega, by dsimp only; omega⟩

/-- The slice behind a piece of a page holds the bytes at the piece's virtual addresses. -/
theorem Backs.bytes {a b : Nat} {c : Nat × Nat} {s : Slice} (mem : Nat → UInt8)
    (h : Backs translate pageTable c s) (hc : c ∈ cut 4096 a b) :
    (s.bytes mem).map some =
      (List.range' c.1 (c.2 - c.1)).map (userByte translate pageTable mem) := by
  obtain ⟨pte, hpte, rfl⟩ := h
  obtain ⟨-, hlt, -, hle⟩ := mem_cut hc
  rw [pageEnd] at hle
  rw [Slice.bytes, List.map_map]
  refine List.ext_getElem (by simp) fun k hk _ => ?_
  simp only [List.length_map, List.length_range'] at hk
  have hdiv : (c.1 + k) / 4096 = c.1 / 4096 := by omega
  have hmod : (c.1 + k) % 4096 = c.1 % 4096 + k := by omega
  simp [userByte, hdiv, hmod, hpte, Nat.add_assoc]

/-- **The walk over a user buffer is exact.** For a buffer below `2 ^ 39` whose pages are mapped the
loop ends with one slice for each page the buffer meets (`Paging.mem_pages`), a nonempty part of
that page's frame, and the slices together hold the bytes at `ptr`, `ptr + 1`, …,
`ptr + len - 1`. -/
theorem translatedByteBuffer_exact {token ptr len : Nat} (mem : Nat → UInt8)
    (hlt : ptr + len < 2 ^ 39)
    (hmap : ∀ va, ptr ≤ va → va < ptr + len →
      (translate (.fromToken token) ⟨va / 4096⟩).isSome) :
    ∃ v : List Slice,
      (∀ fuel, (pages 4096 ptr (ptr + len)).length < fuel →
        translatedByteBuffer translate fuel token ptr len = some (.ok v)) ∧
      List.Forall₂ (InFrameOf translate (.fromToken token)) (pages 4096 ptr (ptr + len)) v ∧
      (v.flatMap (Slice.bytes mem)).map some =
        (List.range len).map fun k => userByte translate (.fromToken token) mem (ptr + k) := by
  have hP : 0 < 4096 := by decide
  have hpages := map_page_cut hP ptr (ptr + len)
  obtain ⟨v, hv, hloop⟩ := bufferLoop_eq hlt ptr fun c hc => by
    obtain ⟨h1, h2, h3, -⟩ := mem_cut hc
    exact Option.isSome_iff_exists.mp (hmap c.1 h1 (by omega))
  have hv' := (List.forall₂_and_left _ _).mpr ⟨fun c (hc : c ∈ cut 4096 ptr (ptr + len)) => hc, hv⟩
  refine ⟨v, fun fuel hfuel => ?_, ?_, ?_⟩
  · rw [translatedByteBuffer, Nat.mod_eq_of_lt (by omega)]
    rw [← hpages, List.length_map] at hfuel
    exact hloop fuel [] hfuel
  · rw [← hpages, List.forall₂_map_left_iff]
    exact hv'.imp fun c s h => h.2.inFrameOf h.1
  · calc (v.flatMap (Slice.bytes mem)).map some
      _ = (cut 4096 ptr (ptr + len)).flatMap fun c =>
          (List.range' c.1 (c.2 - c.1)).map (userByte translate (.fromToken token) mem) := by
        rw [List.map_flatMap]
        refine (List.forall₂_eq_eq_eq.le _ _ (List.rel_flatMap hv' fun c s h => ?_)).symm
        rw [List.forall₂_eq_eq_eq]
        exact (h.2.bytes mem h.1).symm
      _ = (List.range' ptr len).map (userByte translate (.fromToken token) mem) := by
        rw [← List.map_flatMap, flatMap_cut hP, Nat.add_sub_cancel_left]
      _ = _ := by
        rw [List.range'_eq_map_range, List.map_map]
        rfl

/-- Ten bytes across the boundary between the first two pages, on frames 7 and 3. -/
theorem translatedByteBuffer_exact_two_pages :
    let translate : PageTable → VirtPageNum → Option PageTableEntry := fun _ vpn =>
      if vpn.val = 0 then some ⟨7 <<< 10 ||| 1⟩ else if vpn.val = 1 then some ⟨3 <<< 10 ||| 1⟩
      else none
    ∃ v : List Slice, translatedByteBuffer translate 3 0 4090 10 = some (.ok v) ∧ v.length = 2 := by
  intro translate
  obtain ⟨v, hfuel, hpages, -⟩ := @translatedByteBuffer_exact translate 0 4090 10
    (fun _ => 0) (by decide) fun va h1 h2 => by
      rcases Nat.lt_or_ge va 4096 with h | h
      · rw [show va / 4096 = 0 by omega]; rfl
      · rw [show va / 4096 = 1 by omega]; rfl
  exact ⟨v, hfuel 3 (by decide), hpages.length_eq.symm⟩

end

end TinyOS
