import TinyOS.Lib.ByteMem
import TinyOS.Mm.UserMemory

/-!
# Areas of an address space

`MapArea` of `mm/memory_set.rs` (the same file in `phase_4_vm`, `phase_5_fs` and `phase_6_shell`):
`MapArea::new`, which rounds two addresses to a range of pages, and `copy_data`, which copies a
segment page by page into the frames of an area. `map_one` is an exercise; what it has to do, a
frame of its own for every page, is a hypothesis here. `translate` is an exercise too. It walks
tables that lie in the memory `copy_data` writes, so it is a function of the memory, and
`TablesApart` says that the tables are not in the frames that are written.

* A loop over an area visits the pages its addresses meet (`mapArea_visits_its_pages`).
* Data that is not longer than the area is copied exactly (`copyData_exact`).
* The loop is bounded by the data and not by the area (`copyData_confined_iff`).
* The area begins with a page, the data with an address (`copyData_lands_iff`).
-/

namespace TinyOS

open ByteMem

/-- `enum MapType`: pages that are their own frames, or pages with frames of their own. -/
inductive MapType where
  | identical
  | framed
  deriving DecidableEq

/-- `struct MapPermission`, the flags an area is mapped with; here they are only carried along. -/
structure MapPermission where
  bits : UInt8
  deriving DecidableEq

/-- `struct MapArea`: a range of pages, the frames allocated for them, and how they are mapped. -/
structure MapArea where
  vpnRange : VPNRange
  dataFrames : List (VirtPageNum × FrameTracker)
  mapType : MapType
  mapPerm : MapPermission

/-- `MapArea::new`: the pages from the one the start is in to the one the end reaches into. -/
def MapArea.new (startVa endVa : VirtAddr) (mapType : MapType) (mapPerm : MapPermission) :
    Except Panic MapArea := do
  let startVpn := startVa.floor
  let endVpn := endVa.ceil
  return ⟨← VPNRange.new startVpn endVpn endVa.ceil_lt, [], mapType, mapPerm⟩

/-- A `&[u8]` with the bytes of a segment. No slice is longer than `isize::MAX`. -/
structure Data where
  bytes : List UInt8
  length_lt : bytes.length < 2 ^ 63

/-- `&data[start..stop]`, which panics if the bounds are out of order or behind the end. -/
def Data.range (data : Data) (start stop : Nat) : Except Panic (List UInt8) :=
  if start ≤ stop ∧ stop ≤ data.bytes.length then .ok ((data.bytes.drop start).take (stop - start))
  else .error (.sliceIndex start stop data.bytes.length)

/-- Physical memory, a byte for each address; the page tables lie in it as well. -/
abbrev PhysMem := Nat → UInt8

/-- `dst.copy_from_slice(src)`, which panics unless the two slices are of the same length. -/
def Slice.copyFromSlice (dst : Slice) (src : List UInt8) (mem : PhysMem) : Except Panic PhysMem :=
  if dst.len = src.length then .ok (overwrite mem dst.addr src)
  else
    .error (.expect "copy_from_slice: source slice length does not match destination slice length")

/-- `Option::unwrap`, which panics if there is no value, as for a page that is not mapped. -/
def unwrap {α : Type} : Option α → Except Panic α
  | some x => .ok x
  | none => .error unwrapNone

section

variable (translate : PhysMem → PageTable → VirtPageNum → Option PageTableEntry) (pt : PageTable)

/-! ## The loop -/

/-- One iteration of the loop of `copy_data`: the slice it writes to, and the memory after it. -/
def copyStep (data : Data) (start : Nat) (curVpn : VirtPageNum) (mem : PhysMem) :
    Except Panic (Slice × PhysMem) := do
  let src ← data.range start (min data.bytes.length ((start + pageSize) % 2 ^ 64))
  let pte ← unwrap (translate mem pt curVpn)
  let dst ← pte.ppn.getBytesArray.range 0 src.length
  return (dst, ← dst.copyFromSlice src mem)

/-- The loop. `none` if it has not ended after `fuel` iterations. Besides the memory it returns the
slices it has written to. -/
def copyLoop (data : Data) : Nat → Nat → VirtPageNum → PhysMem → List Slice →
    Option (Except Panic (PhysMem × List Slice))
  | 0, _, _, _, _ => none
  | fuel + 1, start, curVpn, mem, written =>
    match copyStep translate pt data start curVpn mem with
    | .error e => some (.error e)
    | .ok (dst, mem) =>
      let start := (start + pageSize) % 2 ^ 64
      if data.bytes.length ≤ start then some (.ok (mem, written ++ [dst]))
      else copyLoop data fuel start curVpn.step mem (written ++ [dst])

/-- `MapArea::copy_data`, which is for framed areas only: the loop from the first page of the
area on. -/
def MapArea.copyData (fuel : Nat) (area : MapArea) (data : Data) (mem : PhysMem) :
    Option (Except Panic (PhysMem × List Slice)) :=
  if area.mapType = .framed then
    copyLoop translate pt data fuel 0 area.vpnRange.getStart mem []
  else some (.error (.expect "assertion `left == right` failed"))

/-- The page tables are not in the frames `F`: whatever is written there, every page is translated
as before. -/
def TablesApart (mem : PhysMem) (F : Set Nat) : Prop :=
  ∀ mem' : PhysMem, (∀ a, a / 4096 ∉ F → mem' a = mem a) →
    ∀ vpn, translate mem' pt vpn = translate mem pt vpn

end

/-- The page `i` pages after `v`, as `i` steps lead to it. -/
def VirtPageNum.ahead (v : VirtPageNum) (i : Nat) : VirtPageNum := ⟨(v.val + i) % 2 ^ 64⟩

/-! ## The pages of an area -/

section

variable {startVa endVa : VirtAddr} {mapType : MapType} {perm : MapPermission}

/-- The area of a segment: from the page of its start to the page behind its end. -/
theorem MapArea.new_eq (hlt : startVa.val < endVa.val) (hend : endVa.val + 4095 < 2 ^ 64) :
    ∃ area, MapArea.new startVa endVa mapType perm = .ok area ∧ area.mapType = mapType ∧
      area.vpnRange.getStart.val = startVa.val / 4096 ∧
      area.vpnRange.getEnd.val = (endVa.val + 4095) / 4096 := by
  have hle : startVa.floor.val ≤ endVa.ceil.val := by
    rw [VirtAddr.ceil_val hend, VirtAddr.floor, pageSize]
    dsimp only
    omega
  refine ⟨⟨⟨startVa.floor, endVa.ceil, hle, endVa.ceil_lt⟩, [], mapType, perm⟩, ?_, rfl, rfl,
    VirtAddr.ceil_val hend⟩
  rw [MapArea.new, VPNRange.new, dif_pos hle]
  rfl

/-- The pages of a new area are those from the page of the start up to the end, rounded up. -/
theorem MapArea.vpnRange_of_new {area : MapArea}
    (hnew : MapArea.new startVa endVa mapType perm = .ok area) :
    area.vpnRange.l = startVa.floor ∧ area.vpnRange.r = endVa.ceil := by
  rw [MapArea.new, VPNRange.new] at hnew
  split at hnew
  · cases hnew
    exact ⟨rfl, rfl⟩
  · cases hnew

/-- The pages a loop over an area visits are those between its start and its end. -/
theorem MapArea.mem_visits_iff {area : MapArea} {pages : List VirtPageNum}
    (hnew : MapArea.new startVa endVa mapType perm = .ok area) (hend : endVa.val + 4095 < 2 ^ 64)
    (h : area.vpnRange.intoIter.Visits pages) (p : VirtPageNum) :
    p ∈ pages ↔ startVa.val / 4096 ≤ p.val ∧ p.val < (endVa.val + 4095) / 4096 := by
  obtain ⟨hl, hr⟩ := vpnRange_of_new hnew
  have hle := area.vpnRange.le
  rw [h.unique area.vpnRange.visits, hl, hr]
  rw [hl, hr] at hle
  rw [VirtAddr.ceil_val hend, VirtAddr.floor, pageSize] at hle ⊢
  dsimp only at hle ⊢
  constructor
  · intro hp
    obtain ⟨n, hn, rfl⟩ := List.mem_map.mp hp
    rw [List.mem_range'_1] at hn
    dsimp only
    omega
  · intro hp
    exact List.mem_map.mpr ⟨p.val, List.mem_range'_1.mpr (by omega), rfl⟩

/-- The pages of a nonempty range of addresses are those it meets. -/
theorem pages_meet_iff {a b p : Nat} (hlt : a < b) : a / 4096 ≤ p ∧ p < (b + 4095) / 4096 ↔
    (Set.Ico (p * 4096) (p * 4096 + 4096) ∩ Set.Ico a b).Nonempty := by
  have hpages : a / 4096 ≤ p ∧ p < (b + 4095) / 4096 ↔ p ∈ Paging.pages 4096 a b := by
    rw [Paging.pages, if_pos hlt, List.mem_range'_1]
    omega
  rw [hpages, Paging.mem_pages (by decide)]
  constructor
  · rintro ⟨x, hax, hxb, rfl⟩
    exact ⟨x, ⟨Nat.div_mul_le_self x 4096, by omega⟩, hax, hxb⟩
  · rintro ⟨x, ⟨hpx, hxp⟩, hax, hxb⟩
    exact ⟨x, hax, hxb, by omega⟩

/-- An address of 39 bits is away from the end of the address space, so that `ceil` does not
wrap around. -/
theorem VirtAddr.ofUsize_add_lt (a : Nat) : (VirtAddr.ofUsize a).val + 4095 < 2 ^ 64 := by
  rw [ofUsize_val]
  omega

end

/-- **An area visits exactly its pages**: the loop over its range ends, goes upwards, and comes to
the pages that meet the addresses of the area. So aligned areas that do not overlap have no page in
common. -/
theorem mapArea_visits_its_pages :
    (∀ a b mapType perm, (VirtAddr.ofUsize a).val < (VirtAddr.ofUsize b).val →
      ∃ area pages,
        MapArea.new (VirtAddr.ofUsize a) (VirtAddr.ofUsize b) mapType perm = .ok area ∧
        area.vpnRange.intoIter.Visits pages ∧
        pages.Pairwise (fun p q => p.val < q.val) ∧
        ∀ p, p ∈ pages ↔ (Set.Ico (p.val * 4096) (p.val * 4096 + 4096) ∩
          Set.Ico (VirtAddr.ofUsize a).val (VirtAddr.ofUsize b).val).Nonempty) ∧
    ∀ a b c d mapType mapType' perm perm' area area' pages pages',
      (∀ v ∈ [a, b, c, d], (VirtAddr.ofUsize v).pageOffset = 0) →
      Disjoint (Set.Ico (VirtAddr.ofUsize a).val (VirtAddr.ofUsize b).val)
        (Set.Ico (VirtAddr.ofUsize c).val (VirtAddr.ofUsize d).val) →
      MapArea.new (VirtAddr.ofUsize a) (VirtAddr.ofUsize b) mapType perm = .ok area →
      MapArea.new (VirtAddr.ofUsize c) (VirtAddr.ofUsize d) mapType' perm' = .ok area' →
      area.vpnRange.intoIter.Visits pages → area'.vpnRange.intoIter.Visits pages' →
      pages.Disjoint pages' := by
  constructor
  · intro a b mapType perm hlt
    have hend := VirtAddr.ofUsize_add_lt b
    obtain ⟨area, hnew, -⟩ := @MapArea.new_eq _ _ mapType perm hlt hend
    refine ⟨area, _, hnew, area.vpnRange.visits, ?_, fun p => ?_⟩
    · rw [List.pairwise_map]
      exact List.pairwise_lt_range'
    · rw [MapArea.mem_visits_iff hnew hend area.vpnRange.visits, pages_meet_iff hlt]
  · intro a b c d mapType mapType' perm perm' area area' pages pages' haligned hdisjoint hnew hnew'
      hvisits hvisits' p hp hp'
    rw [MapArea.mem_visits_iff hnew (VirtAddr.ofUsize_add_lt b) hvisits] at hp
    rw [MapArea.mem_visits_iff hnew' (VirtAddr.ofUsize_add_lt d) hvisits'] at hp'
    simp only [List.forall_mem_cons, VirtAddr.pageOffset_eq] at haligned
    -- The first address of a common page is in both ranges.
    refine Set.disjoint_left.mp hdisjoint (show p.val * 4096 ∈ _ from ⟨?_, ?_⟩) ⟨?_, ?_⟩ <;> omega

/-- Two neighbouring pages at the top of the address space. -/
theorem mapArea_visits_its_pages_top : ∃ area area' pages pages',
    MapArea.new (VirtAddr.ofUsize 0xffffffffffffd000) (VirtAddr.ofUsize 0xffffffffffffe000) .framed
      ⟨0⟩ = .ok area ∧
    MapArea.new (VirtAddr.ofUsize 0xffffffffffffe000) (VirtAddr.ofUsize 0xfffffffffffff000) .framed
      ⟨0⟩ = .ok area' ∧
    area.vpnRange.intoIter.Visits pages ∧ area'.vpnRange.intoIter.Visits pages' ∧
    pages.Disjoint pages' := by
  obtain ⟨area, pages, hnew, hvisits, -⟩ := mapArea_visits_its_pages.1 0xffffffffffffd000
    0xffffffffffffe000 .framed ⟨0⟩ (by decide)
  obtain ⟨area', pages', hnew', hvisits', -⟩ := mapArea_visits_its_pages.1 0xffffffffffffe000
    0xfffffffffffff000 .framed ⟨0⟩ (by decide)
  refine ⟨area, area', pages, pages', hnew, hnew', hvisits, hvisits', ?_⟩
  refine mapArea_visits_its_pages.2 _ _ _ _ _ _ _ _ _ _ _ _ (by decide) ?_ hnew hnew' hvisits
    hvisits'
  exact Set.disjoint_left.mpr fun x hx hx' => absurd hx.2 (not_lt.mpr hx'.1)

/-- How often the loop is run if it does not fail: once even without data. -/
def Data.rounds (data : Data) : Nat := (data.bytes.length - 1) / 4096 + 1

/-- The frame of a page, if it is mapped, and zero if it is not. -/
def frameOf (translate : PageTable → VirtPageNum → Option PageTableEntry) (pt : PageTable)
    (vpn : VirtPageNum) : Nat := ((translate pt vpn).map (·.ppn.val)).getD 0

/-- The slices of the first `n` iterations, if page `i` is mapped to frame `f i`. -/
def writtenTo (f : Nat → Nat) (data : Data) (n : Nat) : List Slice :=
  (List.range n).map fun i => ⟨f i * 4096, (piece 4096 data.bytes i).length⟩

section

variable {translate : PhysMem → PageTable → VirtPageNum → Option PageTableEntry} {pt : PageTable}
  {data : Data} {mem : PhysMem} {v vpn : VirtPageNum} {i : Nat}

/-- One more step leads one page further on, round the end of the page numbers as well. -/
theorem VirtPageNum.step_ahead : (v.ahead i).step = v.ahead (i + 1) := by
  rw [step, ahead, ahead]
  congr 1
  simp only
  omega

/-- The source slice of iteration `i` is piece `i` of the data, within the bounds. -/
theorem Data.range_eq (hi : i < data.rounds) :
    data.range (i * 4096) (min data.bytes.length ((i * 4096 + pageSize) % 2 ^ 64)) =
      .ok (piece 4096 data.bytes i) := by
  have hlt := data.length_lt
  have hstart : i * 4096 ≤ data.bytes.length := by
    rw [rounds] at hi
    omega
  rw [pageSize, Nat.mod_eq_of_lt (by omega), range, if_pos (by omega), piece]
  congr 1
  rw [List.take_eq_take_iff, List.length_drop]
  omega

/-- **An iteration** on a mapped page stores its piece of the data in the frame of the page. -/
theorem copyStep_of_mapped {pte : PageTableEntry} (hi : i < data.rounds)
    (h : translate mem pt vpn = some pte) :
    copyStep translate pt data (i * 4096) vpn mem =
      .ok (⟨pte.ppn.val * 4096, (piece 4096 data.bytes i).length⟩,
        overwrite mem (pte.ppn.val * 4096) (piece 4096 data.bytes i)) := by
  have hpiece : (piece 4096 data.bytes i).length ≤ 4096 := by
    rw [length_piece]
    omega
  have hdst : pte.ppn.getBytesArray.range 0 (piece 4096 data.bytes i).length =
      .ok ⟨pte.ppn.val * 4096, (piece 4096 data.bytes i).length⟩ := by
    rw [pte.getBytesArray_ppn, Slice.range, if_pos ⟨Nat.zero_le _, hpiece⟩, Nat.sub_zero]
    simp only [Nat.add_zero]
  simp only [copyStep, Data.range_eq hi, h, unwrap, bind, Except.bind, hdst]
  rw [Slice.copyFromSlice, if_pos rfl]
  rfl

/-- An iteration on a page that is not mapped panics in `unwrap`. -/
theorem copyStep_of_unmapped (hi : i < data.rounds) (h : translate mem pt vpn = none) :
    copyStep translate pt data (i * 4096) vpn mem = .error unwrapNone := by
  rw [copyStep, Data.range_eq hi, h]
  rfl

section

variable {F : Set Nat} {f : Nat → Nat} {fuel : Nat}

/-- The tables are not changed by the copying, so that every page is translated as at the start. -/
theorem TablesApart.translate_paste (h : TablesApart translate pt mem F) {l : List UInt8}
    (hf : ∀ j < i, f j ∈ F) :
    translate (paste 4096 f l i mem) pt vpn = translate mem pt vpn := by
  refine h _ (fun a ha => paste_of_ne fun k _ hk hplace => ha ?_) vpn
  rw [← hplace, place_div (by decide)]
  exact hf _ hk

/-- One more iteration writes to one more slice, at the start of the frame it comes to. -/
theorem writtenTo_succ : writtenTo f data (i + 1) =
    writtenTo f data i ++ [⟨f i * 4096, (piece 4096 data.bytes i).length⟩] := by
  rw [writtenTo, List.range_succ, List.map_append]
  rfl

/-- The state of the loop before iteration `i`, if the iterations so far were on the frames `f`. -/
def copyLoopAt (translate : PhysMem → PageTable → VirtPageNum → Option PageTableEntry)
    (pt : PageTable) (data : Data) (mem : PhysMem) (v : VirtPageNum) (f : Nat → Nat)
    (fuel i : Nat) : Option (Except Panic (PhysMem × List Slice)) :=
  copyLoop translate pt data fuel (i * 4096) (v.ahead i) (paste 4096 f data.bytes i mem)
    (writtenTo f data i)

/-- An iteration on a mapped page goes on to the next page, or ends the loop if it was the last. -/
theorem copyLoopAt_of_mapped {pte : PageTableEntry} (h : TablesApart translate pt mem F)
    (hf : ∀ j < i, f j ∈ F) (hi : i < data.rounds) (hpte : translate mem pt (v.ahead i) = some pte)
    (hfi : pte.ppn.val = f i) :
    copyLoopAt translate pt data mem v f (fuel + 1) i =
      if i + 1 < data.rounds then copyLoopAt translate pt data mem v f fuel (i + 1)
      else some (.ok (paste 4096 f data.bytes (i + 1) mem, writtenTo f data (i + 1))) := by
  have hlt := data.length_lt
  have hstart : i * 4096 ≤ data.bytes.length := by
    rw [Data.rounds] at hi
    omega
  have hnext : (i * 4096 + pageSize) % 2 ^ 64 = (i + 1) * 4096 := by
    rw [pageSize, Nat.mod_eq_of_lt (by omega), Nat.succ_mul]
  rw [copyLoopAt, copyLoop, copyStep_of_mapped hi ((h.translate_paste hf).trans hpte), hfi]
  dsimp only
  rw [hnext, ← paste_succ, ← writtenTo_succ, VirtPageNum.step_ahead]
  by_cases hlast : i + 1 < data.rounds
  · rw [if_pos hlast, if_neg, copyLoopAt]
    rw [Data.rounds] at hlast
    omega
  · rw [if_neg hlast, if_pos]
    rw [Data.rounds] at hlast
    omega

/-- **All pages are mapped.** Then the loop ends with all pieces in their frames. -/
theorem copyLoopAt_eq (h : TablesApart translate pt mem F) (hf : ∀ j < data.rounds, f j ∈ F)
    (hmap : ∀ j < data.rounds, ∃ pte, translate mem pt (v.ahead j) = some pte ∧ pte.ppn.val = f j)
    (hi : i < data.rounds) (hfuel : data.rounds ≤ fuel + i) :
    copyLoopAt translate pt data mem v f fuel i =
      some (.ok (paste 4096 f data.bytes data.rounds mem, writtenTo f data data.rounds)) := by
  induction fuel generalizing i with
  | zero => omega
  | succ fuel ih =>
    obtain ⟨pte, hpte, hfi⟩ := hmap i hi
    rw [copyLoopAt_of_mapped h (fun j hj => hf j (Nat.lt_trans hj hi)) hi hpte hfi]
    split
    · rename_i hnext
      exact ih hnext (by omega)
    · rw [show i + 1 = data.rounds by omega]

/-- **A page is not mapped.** Then the loop panics when it comes to the first such page. -/
theorem copyLoopAt_of_unmapped {p : Nat} (h : TablesApart translate pt mem F)
    (hf : ∀ j < p, f j ∈ F)
    (hmap : ∀ j < p, ∃ pte, translate mem pt (v.ahead j) = some pte ∧ pte.ppn.val = f j)
    (hp : p < data.rounds) (hnone : translate mem pt (v.ahead p) = none) (hi : i ≤ p)
    (hfuel : p < fuel + i) :
    copyLoopAt translate pt data mem v f fuel i = some (.error unwrapNone) := by
  induction fuel generalizing i with
  | zero => omega
  | succ fuel ih =>
    have hfi : ∀ j < i, f j ∈ F := fun j hj => hf j (Nat.lt_of_lt_of_le hj hi)
    rcases Nat.lt_or_eq_of_le hi with hlt | rfl
    · obtain ⟨pte, hpte, hfp⟩ := hmap i hlt
      rw [copyLoopAt_of_mapped h hfi (Nat.lt_trans hlt hp) hpte hfp, if_pos (by omega)]
      exact ih hlt (by omega)
    · rw [copyLoopAt, copyLoop, copyStep_of_unmapped hp ((h.translate_paste hfi).trans hnone)]

end

/-! ## Data that fits -/

/-- The numbers of the pages of an area, as a set. -/
def MapArea.pages (area : MapArea) : Set Nat :=
  Set.Ico area.vpnRange.getStart.val area.vpnRange.getEnd.val

/-- `copy_data` ends with the result `r`, for every fuel that is large enough. -/
def MapArea.Ends (translate : PhysMem → PageTable → VirtPageNum → Option PageTableEntry)
    (pt : PageTable) (area : MapArea) (data : Data) (mem : PhysMem)
    (r : Except Panic (PhysMem × List Slice)) : Prop :=
  ∃ n, ∀ fuel, n < fuel → area.copyData translate pt fuel data mem = some r

/-- Every page has a frame of its own, and the page tables are in none of these frames. -/
structure OwnFrames (translate : PhysMem → PageTable → VirtPageNum → Option PageTableEntry)
    (pt : PageTable) (mem : PhysMem) (pages : Set Nat) (frame : Nat → Nat) : Prop where
  mapped : ∀ p ∈ pages, ∃ pte, translate mem pt ⟨p⟩ = some pte ∧ pte.ppn.val = frame p
  distinct : Set.InjOn frame pages
  apart : TablesApart translate pt mem (frame '' pages)

section

variable {area : MapArea} {frame : Nat → Nat} {fuel : Nat}

/-- Away from the end of the address space, `i` pages further on is an addition. -/
theorem VirtPageNum.ahead_eq (h : v.val + i < 2 ^ 64) : v.ahead i = ⟨v.val + i⟩ := by
  rw [ahead, Nat.mod_eq_of_lt h]

/-- For a framed area `copy_data` is the loop, from iteration 0 at the first page on. -/
theorem MapArea.copyData_eq_copyLoopAt (hframed : area.mapType = .framed) (f : Nat → Nat) :
    area.copyData translate pt fuel data mem =
      copyLoopAt translate pt data mem area.vpnRange.getStart f fuel 0 := by
  have hlt := Nat.lt_of_le_of_lt area.vpnRange.le area.vpnRange.lt
  rw [copyData, if_pos hframed, copyLoopAt, VirtPageNum.ahead_eq hlt]
  rfl

/-- If all pages the loop comes to are mapped, it ends with all pieces in their frames. -/
theorem ends_of_mapped (hframed : area.mapType = .framed) {F : Set Nat} {f : Nat → Nat}
    (h : TablesApart translate pt mem F) (hf : ∀ i < data.rounds, f i ∈ F)
    (hmap : ∀ i < data.rounds, ∃ pte,
      translate mem pt (area.vpnRange.getStart.ahead i) = some pte ∧ pte.ppn.val = f i) :
    area.Ends translate pt data mem
      (.ok (paste 4096 f data.bytes data.rounds mem, writtenTo f data data.rounds)) := by
  refine ⟨data.rounds, fun fuel hfuel => ?_⟩
  rw [MapArea.copyData_eq_copyLoopAt hframed f]
  exact copyLoopAt_eq h hf hmap (Nat.succ_pos _) (by omega)

/-- If one of them is not mapped, it panics, at the first page for which this is so. -/
theorem ends_of_unmapped (hframed : area.mapType = .framed) {F : Set Nat} {f : Nat → Nat}
    (h : TablesApart translate pt mem F)
    (hf : ∀ i pte, translate mem pt (area.vpnRange.getStart.ahead i) = some pte →
      pte.ppn.val = f i ∧ f i ∈ F)
    (hnone : ∃ i < data.rounds, translate mem pt (area.vpnRange.getStart.ahead i) = none) :
    area.Ends translate pt data mem (.error unwrapNone) := by
  classical
  have hfirst : ∀ j < Nat.find hnone, ∃ pte,
      translate mem pt (area.vpnRange.getStart.ahead j) = some pte := fun j hj => by
    have hmin := Nat.find_min hnone hj
    refine Option.ne_none_iff_exists'.mp fun hj' => hmin ⟨?_, hj'⟩
    exact Nat.lt_trans hj (Nat.find_spec hnone).1
  refine ⟨Nat.find hnone, fun fuel hfuel => ?_⟩
  rw [MapArea.copyData_eq_copyLoopAt hframed f]
  refine copyLoopAt_of_unmapped h (fun j hj => ?_) (fun j hj => ?_) (Nat.find_spec hnone).1
    (Nat.find_spec hnone).2 (Nat.zero_le _) hfuel
  · obtain ⟨pte, hpte⟩ := hfirst j hj
    exact (hf j pte hpte).2
  · obtain ⟨pte, hpte⟩ := hfirst j hj
    exact ⟨pte, hpte, (hf j pte hpte).1⟩

/-- The frames of an area by the number of the page in it. -/
theorem OwnFrames.frame_inj {s e : Nat} (h : OwnFrames translate pt mem (Set.Ico s e) frame)
    {n : Nat} (hn : s + n ≤ e) :
    ∀ i < n, ∀ j < n, frame (s + i) = frame (s + j) → i = j := by
  intro i hi j hj hij
  have := h.distinct (show s + i ∈ Set.Ico s e from ⟨by omega, by omega⟩)
    (show s + j ∈ Set.Ico s e from ⟨by omega, by omega⟩) hij
  omega

/-- **Data that fits** is in the frames of the area in the end, piece by piece. -/
theorem OwnFrames.ends (h : OwnFrames translate pt mem area.pages frame)
    (hframed : area.mapType = .framed)
    (hrounds : area.vpnRange.getStart.val + data.rounds ≤ area.vpnRange.getEnd.val) :
    let f := fun i => frame (area.vpnRange.getStart.val + i)
    area.Ends translate pt data mem
      (.ok (paste 4096 f data.bytes data.rounds mem, writtenTo f data data.rounds)) := by
  intro f
  have hlt : area.vpnRange.getEnd.val < 2 ^ 64 := area.vpnRange.lt
  have hmem : ∀ j < data.rounds, area.vpnRange.getStart.val + j ∈ area.pages :=
    fun j hj => ⟨Nat.le_add_right _ _, by omega⟩
  refine ends_of_mapped hframed h.apart (fun j hj => ⟨_, hmem j hj, rfl⟩) fun j hj => ?_
  rw [VirtPageNum.ahead_eq (by omega)]
  exact h.mapped _ (hmem j hj)

/-- Data that fits into `n` pages is copied in no more than `n` iterations. -/
theorem Data.rounds_le {n : Nat} (hpos : 0 < n) (hlen : data.bytes.length ≤ 4096 * n) :
    data.rounds ≤ n := by
  rw [rounds]
  omega

/-- There is an iteration for every piece of the data. -/
theorem Data.lt_rounds (hi : i * 4096 < data.bytes.length) : i < data.rounds := by
  rw [rounds]
  omega

/-- A byte of the data belongs to one of the iterations. -/
theorem Data.div_lt_rounds {k : Nat} (hk : k < data.bytes.length) : k / 4096 < data.rounds := by
  rw [rounds]
  omega

/-- **`copy_data` writes exactly the data.** If every page of a framed area has a frame of its own
and the data is not longer than the area, `copy_data` ends without a panic, byte `k` of the data is
byte `k % 4096` of the frame of page `k / 4096` of the area, and no other byte of the memory has
changed. -/
theorem copyData_exact (hframed : area.mapType = .framed)
    (hpos : area.vpnRange.getStart.val < area.vpnRange.getEnd.val)
    (hown : OwnFrames translate pt mem area.pages frame)
    (hlen : data.bytes.length ≤
      4096 * (area.vpnRange.getEnd.val - area.vpnRange.getStart.val)) :
    ∃ mem' written, area.Ends translate pt data mem (.ok (mem', written)) ∧
      (∀ k (hk : k < data.bytes.length),
        mem' (frame (area.vpnRange.getStart.val + k / 4096) * 4096 + k % 4096) = data.bytes[k]) ∧
      ∀ b, (∀ k < data.bytes.length,
        frame (area.vpnRange.getStart.val + k / 4096) * 4096 + k % 4096 ≠ b) → mem' b = mem b := by
  have hrounds := data.rounds_le (by omega) hlen
  refine ⟨_, _, hown.ends hframed (by omega), fun k hk => ?_, fun b hb => ?_⟩
  · exact paste_place (hown.frame_inj (by omega)) hk (data.div_lt_rounds hk) (by decide)
  · exact paste_of_ne fun k hk _ => hb k hk

/-- The pages 1 and 2 on the frames 7 and 3. -/
def twoPages : PhysMem → PageTable → VirtPageNum → Option PageTableEntry := fun _ _ vpn =>
  if vpn.val = 1 then some (.new ⟨7⟩ .v) else if vpn.val = 2 then some (.new ⟨3⟩ .v) else none

/-- A framed area of the pages from `l` to `r`. -/
def framedArea (l r : Nat) (le : l ≤ r) (lt : r < 2 ^ 64) : MapArea :=
  ⟨⟨⟨l⟩, ⟨r⟩, le, lt⟩, [], .framed, ⟨0⟩⟩

/-- The two pages have frames of their own, and no page table lies in these. -/
theorem twoPages_ownFrames {l r : Nat} (hl : 1 ≤ l) (hr : r ≤ 3) (pt : PageTable) (mem : PhysMem) :
    OwnFrames twoPages pt mem (Set.Ico l r) fun p => if p = 1 then 7 else 3 where
  mapped p hp := by
    have hcases : p = 1 ∨ p = 2 := by
      have := hp.1
      have := hp.2
      omega
    rcases hcases with rfl | rfl
    · exact ⟨.new ⟨7⟩ .v, rfl, by decide⟩
    · exact ⟨.new ⟨3⟩ .v, rfl, by decide⟩
  distinct p hp q hq h := by
    have := hp.1
    have := hp.2
    have := hq.1
    have := hq.2
    dsimp only at h
    split at h <;> split at h <;> omega
  apart _ _ _ := rfl

/-- 4098 bytes in an area of two pages: the last two are in the frame of the second page, which is
below the one of the first page. -/
theorem copyData_exact_two_pages :
    let data : Data := ⟨List.replicate 4096 10 ++ [20, 30], by
      rw [List.length_append, List.length_replicate]
      decide⟩
    ∃ mem' written, (framedArea 1 3 (by decide) (by decide)).Ends twoPages (.fromToken 0)
      data (fun _ => 0) (.ok (mem', written)) ∧ mem' (7 * 4096 + 4095) = 10 ∧
      mem' (3 * 4096) = 20 ∧ mem' (3 * 4096 + 1) = 30 := by
  intro data
  have hlen : data.bytes.length = 4098 := by
    rw [List.length_append, List.length_replicate]
    rfl
  obtain ⟨mem', written, hends, hdata, -⟩ := @copyData_exact twoPages (.fromToken 0)
    data (fun _ => 0) (framedArea 1 3 (by decide) (by decide)) _ rfl
    (by decide) (twoPages_ownFrames (Nat.le_refl 1) (Nat.le_refl 3) (.fromToken 0) fun _ => 0)
    (hlen.trans_le (by decide))
  refine ⟨mem', written, hends, ?_, ?_, ?_⟩
  · refine (hdata 4095 (by omega)).trans ?_
    rw [List.getElem_append_left (by rw [List.length_replicate]; decide)]
    exact List.getElem_replicate ..
  · refine (hdata 4096 (by omega)).trans ?_
    rw [List.getElem_append_right (by rw [List.length_replicate])]
    simp only [List.length_replicate]
    rfl
  · refine (hdata 4097 (by omega)).trans ?_
    rw [List.getElem_append_right (by rw [List.length_replicate]; decide)]
    simp only [List.length_replicate]
    rfl

end

/-! ## Data of any length -/

/-- A page is mapped to the frame of a page of the area. -/
def SharesFrame (translate : PhysMem → PageTable → VirtPageNum → Option PageTableEntry)
    (pt : PageTable) (area : MapArea) (mem : PhysMem) (n : Nat) : Prop :=
  ∃ p ∈ area.pages, ∃ pte, translate mem pt ⟨p⟩ = some pte ∧ pte.ppn.val = n

/-- `copy_data` panics or writes to frames of the area only. -/
def Confined (translate : PhysMem → PageTable → VirtPageNum → Option PageTableEntry)
    (pt : PageTable) (area : MapArea) (data : Data) (mem : PhysMem) : Prop :=
  (∃ e, area.Ends translate pt data mem (.error e)) ∨
  ∃ mem' written, area.Ends translate pt data mem (.ok (mem', written)) ∧
    ∀ s ∈ written, ∀ a, s.addr ≤ a → a < s.addr + s.len →
      SharesFrame translate pt area mem (a / 4096)

/-- The frames that are mapped at all, from any page. -/
def mappedFrames (translate : PhysMem → PageTable → VirtPageNum → Option PageTableEntry)
    (pt : PageTable) (mem : PhysMem) : Set Nat :=
  { n | ∃ vpn pte, translate mem pt vpn = some pte ∧ pte.ppn.val = n }

section

variable {area : MapArea}

/-- `copy_data` ends in one way only: two results are the same. -/
theorem MapArea.Ends.unique {r r' : Except Panic (PhysMem × List Slice)}
    (h : area.Ends translate pt data mem r) (h' : area.Ends translate pt data mem r') :
    r = r' := by
  obtain ⟨n, h⟩ := h
  obtain ⟨n', h'⟩ := h'
  have := (h (max n n' + 1) (by omega)).symm.trans (h' (max n n' + 1) (by omega))
  exact Option.some.inj this

/-- The frames that are written to are those of the pages there is data for. -/
theorem forall_writtenTo {f : Nat → Nat} {P : Nat → Prop} :
    (∀ s ∈ writtenTo f data data.rounds, ∀ a, s.addr ≤ a → a < s.addr + s.len → P (a / 4096)) ↔
      ∀ i, i * 4096 < data.bytes.length → P (f i) := by
  have hlen (i : Nat) :
      (piece 4096 data.bytes i).length = min 4096 (data.bytes.length - i * 4096) := length_piece i
  simp only [writtenTo, List.forall_mem_map, List.mem_range]
  constructor
  · intro h i hi
    have hpos : 0 < min 4096 (data.bytes.length - i * 4096) := by omega
    have hpage := h i (data.lt_rounds hi) (f i * 4096) (Nat.le_refl _) (by
      rw [hlen]
      exact Nat.lt_add_of_pos_right hpos)
    rwa [Nat.mul_div_cancel _ (by decide)] at hpage
  · intro h i _ a ha ha'
    rw [hlen] at ha'
    have hdiv : a / 4096 = f i := by
      rw [Nat.div_eq_iff (by decide)]
      omega
    rw [hdiv]
    exact h i (by omega)

/-- If all pages the loop comes to are mapped, it is confined to the area exactly if it writes to
frames of the area. -/
theorem confined_iff_of_ends {f : Nat → Nat} {mem' : PhysMem}
    (h : area.Ends translate pt data mem (.ok (mem', writtenTo f data data.rounds))) :
    Confined translate pt area data mem ↔
      ∀ i, i * 4096 < data.bytes.length → SharesFrame translate pt area mem (f i) := by
  rw [← forall_writtenTo]
  constructor
  · rintro (⟨e, he⟩ | ⟨mem', written, hok, hin⟩)
    · cases he.unique h
    · cases hok.unique h
      exact hin
  · intro hin
    exact .inr ⟨_, _, h, hin⟩

/-- **When the copying is confined to the area.** `copy_data` panics or writes to frames of the
area only if and only if a page it comes to is not mapped, or every page behind the area that it
comes to is mapped to a frame of the area. If the data is not longer than the area, there is no such
page. -/
theorem copyData_confined_iff (hframed : area.mapType = .framed)
    (h : TablesApart translate pt mem (mappedFrames translate pt mem)) :
    Confined translate pt area data mem ↔
      (∃ i, i * 4096 < data.bytes.length ∧
        translate mem pt (area.vpnRange.getStart.ahead i) = none) ∨
      ∀ i, area.vpnRange.getEnd.val - area.vpnRange.getStart.val ≤ i →
        i * 4096 < data.bytes.length →
        ∃ pte, translate mem pt (area.vpnRange.getStart.ahead i) = some pte ∧
          SharesFrame translate pt area mem pte.ppn.val := by
  have hlt : area.vpnRange.getEnd.val < 2 ^ 64 := area.vpnRange.lt
  have hf (i : Nat) (pte : PageTableEntry)
      (hpte : translate mem pt (area.vpnRange.getStart.ahead i) = some pte) :
      pte.ppn.val = frameOf (translate mem) pt (area.vpnRange.getStart.ahead i) ∧
        frameOf (translate mem) pt (area.vpnRange.getStart.ahead i) ∈
          mappedFrames translate pt mem := by
    rw [frameOf, hpte]
    exact ⟨rfl, _, pte, hpte, rfl⟩
  by_cases hnone : ∃ i < data.rounds, translate mem pt (area.vpnRange.getStart.ahead i) = none
  · refine iff_of_true (.inl ⟨_, ends_of_unmapped hframed h hf hnone⟩) ?_
    obtain ⟨i, hi, hpage⟩ := hnone
    by_cases hlen : i * 4096 < data.bytes.length
    · exact .inl ⟨i, hlen, hpage⟩
    · -- the loop looks at the first page even if there is no data
      rw [Data.rounds] at hi
      exact .inr fun j _ hj => by omega
  · have hmap (i : Nat) (hi : i < data.rounds) :
        ∃ pte, translate mem pt (area.vpnRange.getStart.ahead i) = some pte :=
      Option.ne_none_iff_exists'.mp fun hpage => hnone ⟨i, hi, hpage⟩
    rw [confined_iff_of_ends (ends_of_mapped hframed h
      (fun i hi => (hf i _ (hmap i hi).choose_spec).2)
      fun i hi => ⟨_, (hmap i hi).choose_spec, (hf i _ (hmap i hi).choose_spec).1⟩)]
    constructor
    · intro hin
      refine .inr fun i _ hi => ?_
      obtain ⟨pte, hpte⟩ := hmap i (data.lt_rounds hi)
      exact ⟨pte, hpte, (hf i pte hpte).1 ▸ hin i hi⟩
    · rintro (⟨j, hj, hpage⟩ | hbehind) i hi
      · exact absurd ⟨j, data.lt_rounds hj, hpage⟩ hnone
      · rcases Nat.lt_or_ge i (area.vpnRange.getEnd.val - area.vpnRange.getStart.val) with hin | hge
        · obtain ⟨pte, hpte⟩ := hmap i (data.lt_rounds hi)
          have hpi := (hf i pte hpte).1
          rw [VirtPageNum.ahead_eq (by omega)] at hpte
          exact ⟨_, ⟨Nat.le_add_right _ i, by omega⟩, pte, hpte, hpi⟩
        · obtain ⟨pte, hpte, hshare⟩ := hbehind i hge hi
          rwa [← (hf i pte hpte).1]

/-- A page and a byte of data, one byte too many for an area of one page. -/
def longData : Data := ⟨List.replicate 4097 7, by decide +kernel⟩

/-- The data is one byte longer than a page, which is the whole area. -/
theorem longData_length : longData.bytes.length = 4097 := List.length_replicate

/-- The data takes two iterations, the second one for its last byte. -/
theorem longData_rounds : longData.rounds = 2 := by
  rw [Data.rounds, longData_length]

/-- The page behind the area is not mapped: `copy_data` panics when it comes to it, and that
counts as confined. -/
theorem copyData_confined_last :
    Confined twoPages (.fromToken 0) (framedArea 2 3 (by decide) (by decide)) longData
      (fun _ => 0) :=
  (copyData_confined_iff rfl fun _ _ _ => rfl).mpr
    (.inl ⟨1, by rw [longData_length]; decide, rfl⟩)

/-- The page behind the area belongs to another one: its first byte is overwritten. -/
theorem copyData_neighbour :
    let area := framedArea 1 2 (by decide) (by decide)
    (∃ mem' written, area.Ends twoPages (.fromToken 0) longData (fun _ => 0)
      (.ok (mem', written)) ∧ (⟨3 * 4096, 1⟩ : Slice) ∈ written) ∧
      ¬ Confined twoPages (.fromToken 0) area longData fun _ => 0 := by
  intro area
  have hends := @ends_of_mapped twoPages (.fromToken 0) longData (fun _ => 0) area rfl Set.univ
    (fun i => if i = 0 then 7 else 3) (fun _ _ _ => rfl) (fun _ _ => trivial) fun i hi => by
      rw [longData_rounds] at hi
      rcases i with _ | _ | i
      · exact ⟨.new ⟨7⟩ .v, rfl, by decide⟩
      · exact ⟨.new ⟨3⟩ .v, rfl, by decide⟩
      · omega
  refine ⟨⟨_, _, hends, ?_⟩, fun h => ?_⟩
  · rw [longData_rounds, writtenTo, List.mem_map]
    refine ⟨1, by decide, ?_⟩
    rw [length_piece, longData_length]
    rfl
  · obtain ⟨p, hp, pte, hpte, hframe⟩ := (confined_iff_of_ends hends).mp h 1 (by
      rw [longData_length]
      decide)
    have hp1 : p = 1 := Nat.le_antisymm (Nat.le_of_lt_succ hp.2) hp.1
    cases hp1
    cases hpte
    exact absurd hframe (by decide)

end

/-! ## Where the data is seen -/

/-- A segment is loaded to its addresses: an area is made for them, the data is copied, and then it
is at `startVa`, `startVa + 1`, … as the page table has them. -/
def Lands (translate : PhysMem → PageTable → VirtPageNum → Option PageTableEntry)
    (pt : PageTable) (startVa endVa : VirtAddr) (perm : MapPermission) (data : Data)
    (mem : PhysMem) : Prop :=
  ∃ area, MapArea.new startVa endVa .framed perm = .ok area ∧
    ∃ mem' written, area.Ends translate pt data mem (.ok (mem', written)) ∧
      ∀ k (hk : k < data.bytes.length),
        userByte (translate mem') pt mem' (startVa.val + k) = some data.bytes[k]

/-- The frames are fresh: `FrameTracker::new` fills them with zeros before anything is copied. -/
def Zeroed (mem : PhysMem) (pages : Set Nat) (frame : Nat → Nat) : Prop :=
  ∀ p ∈ pages, ∀ o < 4096, mem (frame p * 4096 + o) = 0

section

variable {s e : Nat} {frame : Nat → Nat} {startVa endVa : VirtAddr} {perm : MapPermission}

/-- Every byte of the area after the copying: the data from the first page on, then zeros. -/
theorem OwnFrames.paste_place_getD (h : OwnFrames translate pt mem (Set.Ico s e) frame)
    (hzero : Zeroed mem (Set.Ico s e) frame) (hrounds : s + data.rounds ≤ e) {j : Nat}
    (hj : s + j / 4096 < e) :
    paste 4096 (fun i => frame (s + i)) data.bytes data.rounds mem
      (place 4096 (fun i => frame (s + i)) j) = data.bytes.getD j 0 := by
  have hpage : s + j / 4096 ∈ Set.Ico s e := ⟨Nat.le_add_right _ _, hj⟩
  rcases Nat.lt_or_ge j data.bytes.length with hlt | hge
  · rw [paste_place (h.frame_inj hrounds) hlt (data.div_lt_rounds hlt) (by decide),
      List.getD_eq_getElem _ _ hlt]
  · rw [paste_of_ne, List.getD_eq_default _ _ hge]
    · exact hzero _ hpage _ (Nat.mod_lt _ (by decide))
    · -- no byte of the data has the place of `j`
      intro k hk hkr hplace
      have hframe := congrArg (· / 4096) hplace
      have hoff := congrArg (· % 4096) hplace
      simp only [place_div (show 0 < 4096 by decide)] at hframe
      simp only [place, Nat.mul_add_mod_self_right, Nat.mod_mod] at hoff
      have := h.distinct ⟨Nat.le_add_right _ _, by omega⟩ hpage hframe
      omega

/-- What is seen at the addresses of a segment after the copying: the data, from the offset of the
first address in its page on. -/
theorem userByte_paste (hown : OwnFrames translate pt mem (Set.Ico s e) frame)
    (hzero : Zeroed mem (Set.Ico s e) frame) (hrounds : s + data.rounds ≤ e) {va k : Nat}
    (hva : va / 4096 = s) (hk : (va + k) / 4096 < e) :
    let mem' := paste 4096 (fun i => frame (s + i)) data.bytes data.rounds mem
    userByte (translate mem') pt mem' (va + k) = some (data.bytes.getD (va % 4096 + k) 0) := by
  intro mem'
  have hpage : (va + k) / 4096 = s + (va % 4096 + k) / 4096 := by omega
  have hoff : (va + k) % 4096 = (va % 4096 + k) % 4096 := by omega
  obtain ⟨pte, hpte, hframe⟩ := hown.mapped ((va + k) / 4096) ⟨by omega, hk⟩
  have htable : translate mem' pt ⟨(va + k) / 4096⟩ = some pte := by
    refine (hown.apart.translate_paste fun j hj => ⟨s + j, ⟨?_, ?_⟩, rfl⟩).trans hpte
    · exact Nat.le_add_right _ _
    · omega
  rw [userByte, htable]
  refine congrArg some ?_
  dsimp only
  rw [hframe, ← hown.paste_place_getD hzero hrounds (by omega), hoff, hpage]
  rfl

/-- A segment is loaded to its addresses if and only if the data does not change when it is moved by
the offset of the first address in its page. -/
theorem lands_iff_getD (hlt : startVa.val < endVa.val) (hend : endVa.val + 4095 < 2 ^ 64)
    (hown : OwnFrames translate pt mem
      (Set.Ico (startVa.val / 4096) ((endVa.val + 4095) / 4096)) frame)
    (hzero : Zeroed mem (Set.Ico (startVa.val / 4096) ((endVa.val + 4095) / 4096)) frame)
    (hlen : data.bytes.length ≤ endVa.val - startVa.val) :
    Lands translate pt startVa endVa perm data mem ↔
      ∀ k (hk : k < data.bytes.length),
        data.bytes.getD (startVa.val % 4096 + k) 0 = data.bytes[k] := by
  obtain ⟨area, hnew, hframed, hs, he⟩ := @MapArea.new_eq startVa endVa .framed perm hlt hend
  have hrounds : startVa.val / 4096 + data.rounds ≤ (endVa.val + 4095) / 4096 := by
    have := data.rounds_le (show 0 < (endVa.val + 4095) / 4096 - startVa.val / 4096 by omega)
      (by omega)
    omega
  have hpages : area.pages = Set.Ico (startVa.val / 4096) ((endVa.val + 4095) / 4096) := by
    rw [MapArea.pages, hs, he]
  have hends := @OwnFrames.ends translate pt data mem area frame (hpages ▸ hown) hframed
    (by omega)
  rw [hs] at hends
  have hbyte (k : Nat) (hk : k < data.bytes.length) :=
    userByte_paste hown hzero hrounds rfl
      (show (startVa.val + k) / 4096 < (endVa.val + 4095) / 4096 by omega)
  constructor
  · rintro ⟨area', hnew', mem', written, hends', hall⟩ k hk
    cases hnew.symm.trans hnew'
    cases hends'.unique hends
    exact Option.some.inj ((hbyte k hk).symm.trans (hall k hk))
  · intro hall
    refine ⟨area, hnew, _, _, hends, fun k hk => ?_⟩
    rw [hbyte k hk, hall k hk]

/-- **Where a segment is seen.** The pages of a segment are mapped to fresh frames of their own and
the data is not longer than the segment. Then its bytes are found at the addresses of the segment
if and only if the segment begins with a page or the data is all zeros. -/
theorem copyData_lands_iff (hlt : startVa.val < endVa.val) (hend : endVa.val + 4095 < 2 ^ 64)
    (hown : OwnFrames translate pt mem
      (Set.Ico (startVa.val / 4096) ((endVa.val + 4095) / 4096)) frame)
    (hzero : Zeroed mem (Set.Ico (startVa.val / 4096) ((endVa.val + 4095) / 4096)) frame)
    (hlen : data.bytes.length ≤ endVa.val - startVa.val) :
    Lands translate pt startVa endVa perm data mem ↔
      startVa.pageOffset = 0 ∨ ∀ b ∈ data.bytes, b = 0 := by
  rw [lands_iff_getD hlt hend hown hzero hlen, VirtAddr.pageOffset_eq, getD_add_eq_iff]

/-- Two bytes at the beginning of page 1: the start is aligned, and they land where they belong. -/
theorem copyData_lands_page :
    Lands twoPages (.fromToken 0) ⟨4096⟩ ⟨4100⟩ ⟨0⟩ ⟨[97, 98], by decide⟩ fun _ => 0 :=
  (copyData_lands_iff (by decide) (by decide)
    (twoPages_ownFrames (Nat.le_refl 1) (by decide) (.fromToken 0) fun _ => 0)
    (fun _ _ _ _ => rfl) (by decide)).mpr (.inl rfl)

/-- One byte for the address 4196: after the copying, that address holds a zero. -/
theorem copyData_unaligned :
    OwnFrames twoPages (.fromToken 0) (fun _ => 0) (Set.Ico (4196 / 4096) ((4200 + 4095) / 4096))
        (fun p => if p = 1 then 7 else 3) ∧
      Zeroed (fun _ => 0) (Set.Ico (4196 / 4096) ((4200 + 4095) / 4096))
        (fun p => if p = 1 then 7 else 3) ∧
      ¬ Lands twoPages (.fromToken 0) ⟨4196⟩ ⟨4200⟩ ⟨0⟩ ⟨[97], by decide⟩ fun _ => 0 := by
  have hown := twoPages_ownFrames (show 1 ≤ 4196 / 4096 by decide)
    (show (4200 + 4095) / 4096 ≤ 3 by decide) (.fromToken 0) fun _ => 0
  have hzero : Zeroed (fun _ => 0) (Set.Ico (4196 / 4096) ((4200 + 4095) / 4096))
      (fun p => if p = 1 then 7 else 3) := fun _ _ _ _ => rfl
  refine ⟨hown, hzero, ?_⟩
  intro h
  have hbyte := (lands_iff_getD (by decide) (by decide) hown hzero (by decide)).mp h 0 (by decide)
  exact absurd hbyte (by decide)

end

end

end TinyOS
