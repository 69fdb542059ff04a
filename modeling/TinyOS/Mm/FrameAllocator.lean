import TinyOS.Mm.MemorySet
import TinyOS.Lib.Pool
import TinyOS.Lib.Transition

/-!
# Physical frames

`frame_alloc`, `frame_dealloc` and `FrameTracker` (`phase_4_vm/src/mm/frame_allocator.rs`) over
whole histories: trackers are made, written through and dropped in any order. `alloc` and `dealloc`
of `StackFrameAllocator` and `FrameTracker::new` are exercises; `AllocatorSpec` states their
requirements.

The frames that have been handed out at least once are those with a tracker and the recycled ones,
each once (`Inv.perm`). So the frames between the kernel and `MEMORY_END` are a `Pool`
(`run_frames`), whoever holds the trackers: an address space cannot see what another one has
written, and drops of trackers never panic.
-/

namespace TinyOS

open Transition ByteMem

namespace PhysAddr

/-- `PhysAddr::from(v)`, which keeps the lower 56 bits and drops the others. -/
def ofUsize (v : Nat) : PhysAddr := ⟨v &&& (1 <<< paWidthSv39 - 1)⟩

/-- `PhysAddr::floor`: the frame the address is in, whether or not it is the first of the frame. -/
def floor (a : PhysAddr) : PhysPageNum := ⟨a.val / pageSize⟩

/-- `PhysAddr::ceil`: the first frame that starts at the address or behind it. -/
def ceil (a : PhysAddr) : PhysPageNum := ⟨(a.val + pageSize - 1) % 2 ^ 64 / pageSize⟩

end PhysAddr

/-- `MEMORY_END`, the address behind the memory of the machine: no frame reaches beyond it. -/
def memoryEnd : Nat := 0x80800000

/-- `struct StackFrameAllocator`: the frames from `current` to `end` have never been handed out,
the recycled ones have been given back. `recycled` has its last element first. -/
structure StackFrameAllocator where
  current : Nat
  «end» : Nat
  recycled : List Nat

namespace StackFrameAllocator

/-- `StackFrameAllocator::new`, which has no frames at all before `init` gives it some. -/
def new : StackFrameAllocator := ⟨0, 0, []⟩

/-- `StackFrameAllocator::init`: all frames from `l` to `r` can be handed out. -/
def init (a : StackFrameAllocator) (l r : PhysPageNum) : StackFrameAllocator :=
  { a with current := l.val, «end» := r.val }

end StackFrameAllocator

/-- The bytes of a frame as they are in physical memory. -/
def PhysPageNum.bytes (mem : PhysMem) (ppn : PhysPageNum) : List UInt8 :=
  cells mem ppn.getBytesArray.addr ppn.getBytesArray.len

/-- The contents of a frame that was just zeroed: 4096 zeros, as its new owner has to find it. -/
def zeroPage : List UInt8 := List.replicate 4096 0

/-- What `StackFrameAllocator::alloc`, `StackFrameAllocator::dealloc` and `FrameTracker::new` are to
do. A panic is `none`. -/
structure AllocatorSpec (alloc : StackFrameAllocator → Option PhysPageNum × StackFrameAllocator)
    (dealloc : StackFrameAllocator → PhysPageNum → Option StackFrameAllocator)
    (new : PhysMem → PhysPageNum → PhysMem) : Prop where
  pop : ∀ a p rest, a.recycled = p :: rest → alloc a = (some ⟨p⟩, { a with recycled := rest })
  bump : ∀ a, a.recycled = [] → a.current < a.end →
    alloc a = (some ⟨a.current⟩, { a with current := a.current + 1 })
  exhausted : ∀ a, a.recycled = [] → a.end ≤ a.current → alloc a = (none, a)
  push : ∀ a ppn, ppn.val < a.current → ppn.val ∉ a.recycled →
    dealloc a ppn = some { a with recycled := ppn.val :: a.recycled }
  doubleFree : ∀ a ppn, ¬ (ppn.val < a.current ∧ ppn.val ∉ a.recycled) → dealloc a ppn = none
  zero : ∀ mem ppn, new mem ppn = overwrite mem ppn.getBytesArray.addr zeroPage

/-- The allocator, the memory and the trackers there are, one for each frame that somebody owns. -/
structure Frames where
  allocator : StackFrameAllocator
  mem : PhysMem
  trackers : List PhysPageNum

/-- `init_frame_allocator`, with the address of `ekernel`: the frames behind the kernel, up to
the end of the memory. -/
def Frames.initFrameAllocator (ekernel : Nat) (mem : PhysMem) : Frames :=
  ⟨StackFrameAllocator.new.init (PhysAddr.ofUsize ekernel).ceil (PhysAddr.ofUsize memoryEnd).floor,
    mem, []⟩

section

variable (alloc : StackFrameAllocator → Option PhysPageNum × StackFrameAllocator)
  (dealloc : StackFrameAllocator → PhysPageNum → Option StackFrameAllocator)
  (new : PhysMem → PhysPageNum → PhysMem) (l r : Nat)

/-- A step of the owners of frames: one is allocated, dropped or written; or memory that is not
theirs is written. -/
inductive Frames.Step (s : Frames) : Pool.Event PhysPageNum (List UInt8) → Frames → Prop where
  /-- `frame_alloc`, if it finds a frame. -/
  | frameAlloc {ppn : PhysPageNum} {a : StackFrameAllocator}
      (h : alloc s.allocator = (some ppn, a)) :
      Step s (.alloc ppn) ⟨a, new s.mem ppn, ppn :: s.trackers⟩
  /-- `FrameTracker::drop`. -/
  | drop {ppn : PhysPageNum} {a : StackFrameAllocator} (hppn : ppn ∈ s.trackers)
      (h : dealloc s.allocator ppn = some a) :
      Step s (.free ppn) ⟨a, s.mem, s.trackers.erase ppn⟩
  /-- The frame of a tracker is written. -/
  | write {ppn : PhysPageNum} {page : List UInt8} (hppn : ppn ∈ s.trackers)
      (hpage : page.length = 4096) :
      Step s (.write ppn page)
        ⟨s.allocator, overwrite s.mem ppn.getBytesArray.addr page, s.trackers⟩
  /-- Memory outside of the frames is written. -/
  | other {addr : Nat} (b : UInt8) (haddr : addr < l * pageSize ∨ r * pageSize ≤ addr) :
      Step s .other ⟨s.allocator, Function.update s.mem addr b, s.trackers⟩

/-- The frames after `init_frame_allocator`, over any memory it may have started with. -/
def frameSystem (ekernel : Nat) : System Frames (Pool.Event PhysPageNum (List UInt8)) where
  init s := ∃ mem, s = .initFrameAllocator ekernel mem
  step := Frames.Step alloc dealloc new (PhysAddr.ofUsize ekernel).ceil.val
    (PhysAddr.ofUsize memoryEnd).floor.val

end

/-! ## The frames -/

variable {alloc : StackFrameAllocator → Option PhysPageNum × StackFrameAllocator}
  {dealloc : StackFrameAllocator → PhysPageNum → Option StackFrameAllocator}
  {new : PhysMem → PhysPageNum → PhysMem} {l r : Nat} {mem : PhysMem} {ppn q : PhysPageNum}
  {page : List UInt8}

/-- The frames with a number below `2 ^ 52` are at the multiples of the page size. -/
theorem addr_getBytesArray (h : ppn.val < 2 ^ 52) : ppn.getBytesArray.addr = ppn.val * 4096 := by
  show (ppn.val <<< 12) % 2 ^ 64 = ppn.val * 4096
  rw [Nat.shiftLeft_eq]
  exact Nat.mod_eq_of_lt (by omega)

/-- A page that was stored in a frame is what the frame holds. -/
theorem bytes_overwrite (hpage : page.length = 4096) :
    ppn.bytes (overwrite mem ppn.getBytesArray.addr page) = page := by
  have hcells := @cells_overwrite _ mem ppn.getBytesArray.addr page
  rwa [hpage] at hcells

/-- Another frame does not change when a page is stored in a frame. -/
theorem bytes_overwrite_of_ne (hq : q.val < 2 ^ 52) (hppn : ppn.val < 2 ^ 52) (hne : q ≠ ppn)
    (hpage : page.length = 4096) :
    q.bytes (overwrite mem ppn.getBytesArray.addr page) = q.bytes mem := by
  refine cells_overwrite_of_disjoint ?_
  rw [addr_getBytesArray hq, addr_getBytesArray hppn, hpage]
  show q.val * 4096 + 4096 ≤ ppn.val * 4096 ∨ ppn.val * 4096 + 4096 ≤ q.val * 4096
  have hval : q.val ≠ ppn.val := fun heq => hne (by cases q; cases ppn; cases heq; rfl)
  omega

namespace Frames

variable {s s' : Frames} {e : Pool.Event PhysPageNum (List UInt8)}
  {tr : List (Pool.Event PhysPageNum (List UInt8))}

/-- The frames that have been handed out are those with a tracker and the recycled ones. -/
structure Inv (l r : Nat) (s : Frames) : Prop where
  stop : s.allocator.end = r
  start : l ≤ s.allocator.current
  current : s.allocator.current = l ∨ s.allocator.current ≤ r
  perm : (s.trackers.map PhysPageNum.val ++ s.allocator.recycled).Perm
    (List.range' l (s.allocator.current - l))

/-- The invariant holds after `init_frame_allocator`: no frame has been handed out. -/
theorem inv_init (ekernel : Nat) (mem : PhysMem) :
    Inv (PhysAddr.ofUsize ekernel).ceil.val (PhysAddr.ofUsize memoryEnd).floor.val
      (initFrameAllocator ekernel mem) where
  stop := rfl
  start := Nat.le_refl _
  current := .inl rfl
  perm := by
    show [].Perm (List.range' _ ((PhysAddr.ofUsize ekernel).ceil.val - _))
    rw [Nat.sub_self]
    rfl

/-- No frame has two trackers, and none that has been given back has one. -/
theorem Inv.nodup (h : s.Inv l r) :
    (s.trackers.map PhysPageNum.val ++ s.allocator.recycled).Nodup :=
  h.perm.nodup_iff.mpr List.nodup_range'

/-- Where the frames with a tracker are: behind the kernel and within the memory. -/
theorem Inv.range (h : s.Inv l r) (hppn : ppn ∈ s.trackers) :
    l ≤ ppn.val ∧ ppn.val < s.allocator.current ∧ ppn.val < r := by
  have hmem := h.perm.mem_iff.mp
    (List.mem_append_left _ (List.mem_map_of_mem (f := PhysPageNum.val) hppn))
  rw [List.mem_range'_1] at hmem
  have := h.start
  have := h.current
  omega

/-- A frame with a tracker is not recycled, so that it cannot be handed out to a second owner. -/
theorem Inv.not_recycled (h : s.Inv l r) (hppn : ppn ∈ s.trackers) :
    ppn.val ∉ s.allocator.recycled := fun hrec =>
  List.disjoint_of_nodup_append h.nodup (List.mem_map_of_mem hppn) hrec

/-- Numbers determine frames: a frame has a tracker if its number is among theirs. -/
theorem mem_trackers_iff : ppn ∈ s.trackers ↔ ppn.val ∈ s.trackers.map PhysPageNum.val := by
  refine ⟨List.mem_map_of_mem, fun h => ?_⟩
  obtain ⟨q, hq, heq⟩ := List.mem_map.mp h
  obtain rfl : q = ppn := by
    cases q
    cases ppn
    cases heq
    rfl
  exact hq

/-- **What `frame_alloc` finds:** a frame without a tracker, or none if every frame has one. -/
theorem Inv.alloc_cases (spec : AllocatorSpec alloc dealloc new) (h : s.Inv l r)
    (mem : PhysMem) :
    (alloc s.allocator = (none, s.allocator) ∧
      ∀ n, l ≤ n → n < r → n ∈ s.trackers.map PhysPageNum.val) ∨
    ∃ ppn a, alloc s.allocator = (some ppn, a) ∧ ppn ∉ s.trackers ∧ l ≤ ppn.val ∧ ppn.val < r ∧
      Inv l r ⟨a, mem, ppn :: s.trackers⟩ := by
  have hstop := h.stop
  have hstart := h.start
  have hcurrent := h.current
  have hperm := h.perm
  cases hrec : s.allocator.recycled with
  | cons p rest =>
    rw [hrec] at hperm
    have hp := hperm.mem_iff.mp (List.mem_append_right _ (List.mem_cons_self ..))
    rw [List.mem_range'_1] at hp
    refine .inr ⟨⟨p⟩, _, spec.pop _ p rest hrec, fun hmem => ?_, hp.1, by dsimp only; omega, hstop,
      hstart, hcurrent, ?_⟩
    · exact h.not_recycled hmem (hrec ▸ List.mem_cons_self ..)
    · exact List.perm_middle.symm.trans hperm
  | nil =>
    rw [hrec, List.append_nil] at hperm
    by_cases hlt : s.allocator.current < s.allocator.end
    · refine .inr ⟨⟨s.allocator.current⟩, _, spec.bump _ hrec hlt, fun hmem => ?_, hstart,
        by dsimp only; omega, hstop, Nat.le_succ_of_le hstart, .inr (by dsimp only; omega), ?_⟩
      · exact lt_irrefl _ (h.range hmem).2.1
      · show (s.allocator.current :: (s.trackers.map PhysPageNum.val ++ s.allocator.recycled)).Perm
          (List.range' l (s.allocator.current + 1 - l))
        rw [hrec, List.append_nil, Nat.succ_sub hstart, List.range'_concat,
          show l + 1 * (s.allocator.current - l) = s.allocator.current by omega]
        exact (hperm.cons _).trans (List.perm_append_singleton _ _).symm
    · refine .inl ⟨spec.exhausted _ hrec (by omega), fun n hl hr => hperm.mem_iff.mpr ?_⟩
      rw [List.mem_range'_1]
      omega

/-- The drop of a tracker does not panic: its frame has been handed out and was not given back
before. -/
theorem Inv.dealloc_eq (spec : AllocatorSpec alloc dealloc new) (h : s.Inv l r)
    (hppn : ppn ∈ s.trackers) : dealloc s.allocator ppn =
      some { s.allocator with recycled := ppn.val :: s.allocator.recycled } :=
  spec.push _ _ (h.range hppn).2.1 (h.not_recycled hppn)

/-- **A step keeps the invariant, and does what a pool has to do.** -/
theorem Step.inv (spec : AllocatorSpec alloc dealloc new) (hr : r < 2 ^ 52) (h : s.Inv l r)
    (hs : Step alloc dealloc new l r s e s') :
    s'.Inv l r ∧ Pool.Does zeroPage (fun _ => True) s.trackers (·.bytes s.mem) e s'.trackers
      (·.bytes s'.mem) := by
  have hlt : ∀ q ∈ s.trackers, q.val < 2 ^ 52 := fun q hq => (h.range hq).2.2.trans hr
  have hzero : zeroPage.length = 4096 := List.length_replicate ..
  cases hs with
  | @frameAlloc ppn a halloc =>
    rcases h.alloc_cases spec (new s.mem ppn) with ⟨hnone, -⟩ |
      ⟨ppn', a', hsome, hfree, -, hppn, hinv⟩
    · rw [halloc] at hnone
      cases hnone
    · rw [halloc] at hsome
      cases hsome
      refine ⟨hinv, fun q hq hne => ?_, hfree, rfl, fun _ => ?_⟩
      · rw [spec.zero]
        exact bytes_overwrite_of_ne (hlt q hq) (hppn.trans hr)
          (fun heq => hne (congrArg some heq.symm)) hzero
      · rw [spec.zero]
        exact bytes_overwrite hzero
  | @drop ppn a hppn hdealloc =>
    rw [h.dealloc_eq spec hppn] at hdealloc
    cases hdealloc
    refine ⟨⟨h.stop, h.start, h.current, ?_⟩, fun q hq _ => rfl, rfl⟩
    refine List.perm_middle.trans (List.Perm.trans ?_ h.perm)
    rw [← List.cons_append]
    exact ((List.perm_cons_erase hppn).symm.map PhysPageNum.val).append_right _
  | @write ppn page hppn hpage =>
    refine ⟨⟨h.stop, h.start, h.current, h.perm⟩, fun q hq hne => ?_, rfl, fun _ => ?_⟩
    · exact bytes_overwrite_of_ne (hlt q hq) (hlt ppn hppn)
        (fun heq => hne (congrArg some heq.symm)) hpage
    · exact bytes_overwrite hpage
  | @other addr b haddr =>
    refine ⟨⟨h.stop, h.start, h.current, h.perm⟩, fun q hq _ => ?_, rfl⟩
    have hrange := h.range hq
    refine cells_congr fun k hk => Function.update_of_ne ?_ _ _
    have hk : k < 4096 := hk
    rw [addr_getBytesArray (hlt q hq)]
    rw [pageSize] at haddr
    omega

/-- The invariant of every history, together with what the owners find in their frames. -/
theorem inv_of_run (spec : AllocatorSpec alloc dealloc new) {ekernel : Nat}
    (h₀ : (frameSystem alloc dealloc new ekernel).init s)
    (hrun : (frameSystem alloc dealloc new ekernel).Run s tr s') :
    s'.Inv (PhysAddr.ofUsize ekernel).ceil.val (PhysAddr.ofUsize memoryEnd).floor.val ∧
      Pool.Kept zeroPage (fun _ => True) tr s'.trackers (·.bytes s'.mem) := by
  obtain ⟨mem, rfl⟩ := h₀
  refine hrun.history (I := fun tr s' => s'.Inv (PhysAddr.ofUsize ekernel).ceil.val
    (PhysAddr.ofUsize memoryEnd).floor.val ∧ Pool.Kept zeroPage (fun _ => True) tr s'.trackers
      (·.bytes s'.mem)) ⟨inv_init ekernel mem, .nil ..⟩ ?_
  rintro tr t e u ⟨h, hk⟩ hs
  obtain ⟨h', hdoes⟩ := Step.inv spec (by decide) h hs
  exact ⟨h', hk.step hdoes⟩

/-- **Every frame has one owner.** After any history since `init_frame_allocator`: the trackers are
of distinct frames between the kernel and `MEMORY_END`, and the frame of each holds what was written
through it last, zeros if nothing. `frame_alloc` returns `None` only if every frame has a tracker,
and else a zeroed frame that has none. And `frame_dealloc` of one of these frames panics if and
only if it has no tracker. -/
theorem run_frames (spec : AllocatorSpec alloc dealloc new) {ekernel : Nat}
    (h₀ : (frameSystem alloc dealloc new ekernel).init s)
    (hrun : (frameSystem alloc dealloc new ekernel).Run s tr s') :
    s'.trackers.Nodup ∧
    (∀ ppn ∈ s'.trackers, (PhysAddr.ofUsize ekernel).ceil.val ≤ ppn.val ∧
      ppn.val < (PhysAddr.ofUsize memoryEnd).floor.val ∧
      ppn.bytes s'.mem = Pool.lastWritten zeroPage ppn tr) ∧
    ((alloc s'.allocator = (none, s'.allocator) ∧
        ∀ ppn : PhysPageNum, (PhysAddr.ofUsize ekernel).ceil.val ≤ ppn.val →
          ppn.val < (PhysAddr.ofUsize memoryEnd).floor.val → ppn ∈ s'.trackers) ∨
      ∃ ppn a, alloc s'.allocator = (some ppn, a) ∧ ppn ∉ s'.trackers ∧
        ppn.bytes (new s'.mem ppn) = zeroPage) ∧
    ∀ ppn : PhysPageNum, (PhysAddr.ofUsize ekernel).ceil.val ≤ ppn.val →
      ppn.val < (PhysAddr.ofUsize memoryEnd).floor.val →
        (dealloc s'.allocator ppn = none ↔ ppn ∉ s'.trackers) := by
  obtain ⟨h, hk⟩ := inv_of_run spec h₀ hrun
  refine ⟨hk.nodup, fun ppn hppn => ?_, ?_,
    fun ppn hl hr => ⟨fun hnone hmem => ?_, fun hfree => ?_⟩⟩
  · exact ⟨(h.range hppn).1, (h.range hppn).2.2, hk.content ppn hppn trivial⟩
  · rcases h.alloc_cases spec s'.mem with ⟨hnone, hall⟩ | ⟨ppn, a, hsome, hfree, -⟩
    · exact .inl ⟨hnone, fun ppn hl hr => mem_trackers_iff.mpr (hall ppn.val hl hr)⟩
    · refine .inr ⟨ppn, a, hsome, hfree, ?_⟩
      rw [spec.zero]
      exact bytes_overwrite (List.length_replicate ..)
  · rw [h.dealloc_eq spec hmem] at hnone
    cases hnone
  · refine spec.doubleFree _ _ fun ⟨hlt, hrec⟩ => ?_
    have hmem : ppn.val ∈ List.range' (PhysAddr.ofUsize ekernel).ceil.val
        (s'.allocator.current - (PhysAddr.ofUsize ekernel).ceil.val) := by
      rw [List.mem_range'_1]
      omega
    rcases List.mem_append.mp (h.perm.mem_iff.mpr hmem) with hmem | hmem
    · exact hfree (mem_trackers_iff.mpr hmem)
    · exact hrec hmem

end Frames

/-- The allocator `AllocatorSpec` describes: a recycled frame if there is one, else the next new
one. -/
def StackFrameAllocator.allocFrame (a : StackFrameAllocator) :
    Option PhysPageNum × StackFrameAllocator :=
  match a.recycled with
  | p :: rest => (some ⟨p⟩, { a with recycled := rest })
  | [] =>
    if a.current < a.end then (some ⟨a.current⟩, { a with current := a.current + 1 }) else (none, a)

/-- The `dealloc` that `AllocatorSpec` describes: a frame that is not handed out is a double
free, and panics. -/
def StackFrameAllocator.deallocFrame (a : StackFrameAllocator) (ppn : PhysPageNum) :
    Option StackFrameAllocator :=
  if ppn.val < a.current ∧ ppn.val ∉ a.recycled then
    some { a with recycled := ppn.val :: a.recycled }
  else none

/-- The `FrameTracker::new` that `AllocatorSpec` describes: the frame is filled with zeros. -/
def FrameTracker.zeroed (mem : PhysMem) (ppn : PhysPageNum) : PhysMem :=
  overwrite mem ppn.getBytesArray.addr zeroPage

/-- The requirements on the three exercises can be met, so what is proved from them is not about
nothing. -/
theorem allocatorSpec_stack : AllocatorSpec StackFrameAllocator.allocFrame
    StackFrameAllocator.deallocFrame FrameTracker.zeroed where
  pop a p rest h := by rw [StackFrameAllocator.allocFrame, h]
  bump a h hlt := by
    rw [StackFrameAllocator.allocFrame, h]
    exact if_pos hlt
  exhausted a h hle := by
    rw [StackFrameAllocator.allocFrame, h]
    exact if_neg (not_lt.mpr hle)
  push _ _ hlt hrec := if_pos ⟨hlt, hrec⟩
  doubleFree _ _ h := if_neg h
  zero _ _ := rfl

/-- After a kernel that ends at `0x80200000` two frames are handed out and written, and the first
one is given back and handed out again: it is zeroed, and the second one has been left alone. -/
theorem run_frames_again :
    let sys := frameSystem StackFrameAllocator.allocFrame StackFrameAllocator.deallocFrame
      FrameTracker.zeroed 0x80200000
    let page : List UInt8 := List.replicate 4096 7
    ∃ s s', sys.init s ∧ sys.Run s [.alloc ⟨0x80200⟩, .alloc ⟨0x80201⟩, .write ⟨0x80200⟩ page,
        .write ⟨0x80201⟩ page, .free ⟨0x80200⟩, .alloc ⟨0x80200⟩] s' ∧
      s'.trackers = [⟨0x80200⟩, ⟨0x80201⟩] ∧ PhysPageNum.bytes s'.mem ⟨0x80200⟩ = zeroPage ∧
      PhysPageNum.bytes s'.mem ⟨0x80201⟩ = page := by
  intro sys page
  have hpage : page.length = 4096 := List.length_replicate ..
  have h₀ : sys.init (.initFrameAllocator 0x80200000 fun _ => 7) := ⟨_, rfl⟩
  have halloc : sys.step (.initFrameAllocator 0x80200000 fun _ => 7) (.alloc ⟨0x80200⟩) _ :=
    Frames.Step.frameAlloc (a := ⟨0x80201, 0x80800, []⟩) rfl
  have h₁ := (System.Run.nil _).snoc halloc
  have h₂ := h₁.snoc (show sys.step _ (.alloc ⟨0x80201⟩) _ from
    .frameAlloc (a := ⟨0x80202, 0x80800, []⟩) rfl)
  have h₃ := h₂.snoc (show sys.step _ (.write ⟨0x80200⟩ page) _ from .write (by simp) hpage)
  have h₄ := h₃.snoc (show sys.step _ (.write ⟨0x80201⟩ page) _ from .write (by simp) hpage)
  have h₅ := h₄.snoc (show sys.step _ (.free ⟨0x80200⟩) _ from
    .drop (a := ⟨0x80202, 0x80800, [0x80200]⟩) (by simp) rfl)
  have h₆ := h₅.snoc (show sys.step _ (.alloc ⟨0x80200⟩) _ from
    .frameAlloc (a := ⟨0x80202, 0x80800, []⟩) rfl)
  have hframes := (Frames.run_frames allocatorSpec_stack h₀ h₆).2.1
  refine ⟨_, _, h₀, h₆, rfl, ?_, ?_⟩
  · exact (hframes ⟨0x80200⟩ (by decide)).2.2
  · exact (hframes ⟨0x80201⟩ (by decide)).2.2

end TinyOS
