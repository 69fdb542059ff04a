import TinyOS.Lib.Transition

/-!
# Process identifiers

The allocator of `phase_6_shell/src/task/pid.rs`. A `PidHandle` is made by `pid_alloc` only and
gives its number back when it is dropped. `dealloc` checks nothing: that a number is never handed
out twice rests on the invariant `Compact`, which every order of allocations and drops keeps.
-/

namespace TinyOS.Task

open Transition

/-- `struct PidAllocator`: the next new number and the numbers that have been given back.
`recycled` has its last element first. -/
structure PidAllocator where
  current : UInt64
  recycled : List UInt64

namespace PidAllocator

/-- `PidAllocator::new`: no number has been handed out. -/
def new : PidAllocator := ⟨0, []⟩

/-- `alloc`: the number of the handle and the new allocator. -/
def alloc (a : PidAllocator) : UInt64 × PidAllocator :=
  match a.recycled with
  | p :: recycled => (p, ⟨a.current, recycled⟩)
  | [] => (a.current + 1 - 1, ⟨a.current + 1, []⟩)

/-- `dealloc`: the number goes on top of the recycled ones. -/
def dealloc (a : PidAllocator) (pid : UInt64) : PidAllocator := ⟨a.current, pid :: a.recycled⟩

end PidAllocator

/-- The allocator and the numbers of the live handles. A handle is a `usize`, eight bytes of an
address space of `2 ^ 64` bytes, so `current` does not wrap around. -/
structure Handles where
  allocator : PidAllocator
  live : List UInt64
  fits : 8 * live.length ≤ 2 ^ 64

namespace Handles

/-- What happens to the handles: `pid_alloc` makes one with some number, or one is dropped. -/
inductive Event where
  | pidAlloc (pid : UInt64)
  | drop (pid : UInt64)

/-- A step by the code of the allocator; a handle is a live one when it is dropped. -/
inductive Step (s : Handles) : Event → Handles → Prop where
  | pidAlloc (fits : 8 * (s.allocator.alloc.1 :: s.live).length ≤ 2 ^ 64) :
      Step s (.pidAlloc s.allocator.alloc.1)
        ⟨s.allocator.alloc.2, s.allocator.alloc.1 :: s.live, fits⟩
  | drop {pid : UInt64} (h : pid ∈ s.live) (fits : 8 * (s.live.erase pid).length ≤ 2 ^ 64) :
      Step s (.drop pid) ⟨s.allocator.dealloc pid, s.live.erase pid, fits⟩

/-- No handle has been made yet. -/
def new : Handles := ⟨.new, [], Nat.zero_le _⟩

/-- The handles over any sequence of calls, from the start of the kernel on. -/
def system : System Handles Event where
  init s := s = new
  step := Step

variable {s s' : Handles} {e : Event}

/-! ## The invariant -/

/-- The live and the recycled numbers are the first `current` ones, each once. -/
def Compact (s : Handles) : Prop :=
  ((s.live ++ s.allocator.recycled).map UInt64.toNat).Perm (List.range s.allocator.current.toNat)

/-- No number is live twice, and none that was given back is live. -/
theorem Compact.nodup (h : s.Compact) : (s.live ++ s.allocator.recycled).Nodup :=
  .of_map _ (h.nodup_iff.mpr List.nodup_range)

/-- The live and the recycled numbers are `current` many: no number is lost or counted twice. -/
theorem Compact.length (h : s.Compact) :
    s.live.length + s.allocator.recycled.length = s.allocator.current.toNat := by
  have hlen := h.length_eq
  rwa [List.length_map, List.length_append, List.length_range] at hlen

/-- What a step does: it recycles a number, hands out a recycled one, or hands out the next one,
with no handle left to recycle. -/
theorem step_cases (h : s.Compact) (hs : Step s e s') :
    (∃ p, e = .drop p ∧ s'.allocator.current = s.allocator.current ∧
      s.live.Perm (p :: s'.live) ∧ s'.allocator.recycled = p :: s.allocator.recycled) ∨
    (∃ p, e = .pidAlloc p ∧ s'.allocator.current = s.allocator.current ∧
      s'.live = p :: s.live ∧ s.allocator.recycled = p :: s'.allocator.recycled) ∨
    (e = .pidAlloc s.allocator.current ∧
      s'.allocator.current.toNat = s.allocator.current.toNat + 1 ∧
      s'.live = s.allocator.current :: s.live ∧
      s.allocator.recycled = [] ∧ s'.allocator.recycled = []) := by
  cases hs with
  | @drop p hp fits => exact .inl ⟨p, rfl, rfl, List.perm_cons_erase hp, rfl⟩
  | pidAlloc fits =>
    cases hr : s.allocator.recycled with
    | cons p recycled =>
      have halloc : s.allocator.alloc = (p, ⟨s.allocator.current, recycled⟩) := by
        rw [PidAllocator.alloc, hr]
      refine .inr (.inl ⟨s.allocator.alloc.1, rfl, ?_, rfl, ?_⟩)
      · rw [halloc]
      · rw [halloc]
    | nil =>
      have halloc : s.allocator.alloc = (s.allocator.current, ⟨s.allocator.current + 1, []⟩) := by
        rw [PidAllocator.alloc, hr, UInt64.add_sub_cancel]
      -- every number is live, so there is room for the next one
      have hlen := h.length
      rw [hr, List.length_nil, Nat.add_zero] at hlen
      have hfits := s.fits
      refine .inr (.inr ⟨?_, ?_, ?_, rfl, ?_⟩)
      · rw [halloc]
      · have hroom : s.allocator.current.toNat + 1 < 2 ^ 64 := by omega
        rw [halloc]
        rw [UInt64.toNat_add, UInt64.toNat_one, Nat.mod_eq_of_lt hroom]
      · rw [halloc]
      · rw [halloc]

/-- **A step keeps the numbers compact**: a new handle gets a recycled number or the next one. -/
theorem compact_step (h : s.Compact) (hs : Step s e s') : s'.Compact := by
  obtain ⟨p, -, hc, hl, hr⟩ | ⟨p, -, hc, hl, hr⟩ | ⟨-, hc, hl, hr, hr'⟩ := step_cases h hs
  · have hperm : (s'.live ++ s'.allocator.recycled).Perm (s.live ++ s.allocator.recycled) := by
      rw [hr]
      exact List.perm_middle.trans (hl.symm.append_right _)
    rw [Compact, hc]
    exact (hperm.map _).trans h
  · have hperm : (s'.live ++ s'.allocator.recycled).Perm (s.live ++ s.allocator.recycled) := by
      rw [hl, hr]
      exact List.perm_middle.symm
    rw [Compact, hc]
    exact (hperm.map _).trans h
  · rw [Compact, hr, List.append_nil] at h
    rw [Compact, hc, hl, hr', List.append_nil, List.map_cons, List.range_succ]
    exact (h.cons _).trans (List.perm_append_singleton _ _).symm

/-- Before any handle was made the numbers are compact: there are none. -/
theorem compact_new : new.Compact := .refl _

/-- A number that is handed out is not live, whether it is a recycled or a new one. -/
theorem not_mem_live_of_step {pid : UInt64} (h : s.Compact) (hs : Step s (.pidAlloc pid) s') :
    pid ∉ s.live := by
  have hnodup := (compact_step h hs).nodup
  obtain ⟨_, ⟨⟩, -⟩ | ⟨p, ⟨⟩, -, hl, -⟩ | ⟨⟨⟩, -, hl, -⟩ := step_cases h hs
  · rw [hl] at hnodup
    exact (List.nodup_cons.mp (List.Nodup.of_append_left hnodup)).1
  · rw [hl] at hnodup
    exact (List.nodup_cons.mp (List.Nodup.of_append_left hnodup)).1

/-- `current` never goes down, so that it counts the numbers ever handed out. -/
theorem current_le_of_run {tr : List Event} (h : s.Compact) (hrun : system.Run s tr s') :
    s'.Compact ∧ s.allocator.current.toNat ≤ s'.allocator.current.toNat := by
  refine hrun.invariant
    (I := fun t => t.Compact ∧ s.allocator.current.toNat ≤ t.allocator.current.toNat)
    ⟨h, le_refl _⟩ ?_
  rintro t e u ⟨ht, hle⟩ hs
  refine ⟨compact_step ht hs, ?_⟩
  obtain ⟨_, -, hc, -⟩ | ⟨_, -, hc, -⟩ | ⟨-, hc, -⟩ := step_cases ht hs
  · rw [hc]
    exact hle
  · rw [hc]
    exact hle
  · rw [hc]
    exact Nat.le_succ_of_le hle

/-! ## How many handles were live -/

/-- At some point of a run as many handles were live as numbers have been made. -/
theorem exists_live_length_eq {tr : List Event} (hrun : system.Run new tr s) :
    ∃ w, system.Through new tr s w ∧ w.live.length = s.allocator.current.toNat := by
  -- the point is the last allocation that found no recycled number
  refine (hrun.history (I := fun tr t => t.Compact ∧ system.Run new tr t ∧
    ∃ w, system.Through new tr t w ∧ w.live.length = t.allocator.current.toNat)
    ⟨compact_new, .nil _, new, .last (.nil _), rfl⟩ ?_).2.2
  rintro tr t e u ⟨ht, hrun, w, hw, hlen⟩ hs
  have hu := compact_step ht hs
  refine ⟨hu, hrun.snoc hs, ?_⟩
  obtain ⟨_, -, hc, -⟩ | ⟨_, -, hc, -⟩ | ⟨-, -, -, -, hr⟩ := step_cases ht hs
  · exact ⟨w, hw.snoc hs, by rw [hlen, hc]⟩
  · exact ⟨w, hw.snoc hs, by rw [hlen, hc]⟩
  · have hlen := hu.length
    rw [hr, List.length_nil, Nat.add_zero] at hlen
    exact ⟨u, .last (hrun.snoc hs), hlen⟩

/-- `current` is the largest number of handles that were live at one point of the run. -/
theorem isGreatest_live_length {tr : List Event} (hrun : system.Run new tr s) :
    IsGreatest {n | ∃ w, system.Through new tr s w ∧ w.live.length = n}
      s.allocator.current.toNat := by
  refine ⟨exists_live_length_eq hrun, ?_⟩
  rintro n ⟨w, ⟨pre, post, -, hpre, hpost⟩, rfl⟩
  obtain ⟨hw, -⟩ := current_le_of_run compact_new hpre
  have hlen := hw.length
  have hle := (current_le_of_run hw hpost).2
  omega

/-- **Process identifiers are unique and compact.** After any sequence of allocations and drops, the
live numbers are distinct and together with the recycled ones they are the numbers below `current`,
each once; a number that is handed out next is not live; and `current` is the largest number of
handles that were live at the same time. -/
theorem run_compact {tr : List Event} (hrun : system.Run new tr s) :
    s.live.Nodup ∧
    ((s.live ++ s.allocator.recycled).map UInt64.toNat).Perm
      (List.range s.allocator.current.toNat) ∧
    (∀ pid s', system.step s (.pidAlloc pid) s' → pid ∉ s.live) ∧
    IsGreatest {n | ∃ w, system.Through new tr s w ∧ w.live.length = n}
      s.allocator.current.toNat := by
  obtain ⟨hs, -⟩ := current_le_of_run compact_new hrun
  exact ⟨.of_append_left hs.nodup, hs, fun _ _ => not_mem_live_of_step hs,
    isGreatest_live_length hrun⟩

/-- Two allocations, a drop of the first one and an allocation. -/
theorem run_compact_reuse : ∃ s, system.Run new [.pidAlloc 0, .pidAlloc 1, .drop 0, .pidAlloc 0] s ∧
    s.live = [0, 1] ∧ IsGreatest {n | ∃ w, system.Through new
      [.pidAlloc 0, .pidAlloc 1, .drop 0, .pidAlloc 0] s w ∧ w.live.length = n} 2 := by
  have h₁ : system.Run new [.pidAlloc 0] ⟨⟨1, []⟩, [0], by decide⟩ := .snoc (.nil _) (.pidAlloc _)
  have h₂ : system.Run new [.pidAlloc 0, .pidAlloc 1] ⟨⟨2, []⟩, [1, 0], by decide⟩ :=
    .snoc h₁ (.pidAlloc _)
  have h₃ : system.Run new [.pidAlloc 0, .pidAlloc 1, .drop 0] ⟨⟨2, [0]⟩, [1], by decide⟩ :=
    .snoc h₂ (.drop (by simp) _)
  have h₄ : system.Run new [.pidAlloc 0, .pidAlloc 1, .drop 0, .pidAlloc 0]
      ⟨⟨2, []⟩, [0, 1], by decide⟩ := .snoc h₃ (.pidAlloc _)
  exact ⟨_, h₄, rfl, (run_compact h₄).2.2.2⟩

end Handles

end TinyOS.Task
