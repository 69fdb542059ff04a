import TinyOS.Lib.Align
import TinyOS.Lib.Region
import TinyOS.Lib.Transition

/-!
# The bump allocator of the kernel

`heap.rs` of `phase_3_sync`: `BumpHeap::alloc`, called by any number of threads. The shared variable
is `next`; a thread touches it with one `load` and with `compare_exchange`, and everything else it
does is local, so these are the steps. Arithmetic is that of `UInt64`; `NoWrap` says that it agrees
with the arithmetic of the natural numbers.

A successful `compare_exchange` moves `next` behind the range it hands out, so the ranges of a run
are stacked between the start of the buffer and `next` (`Inv.stacked`).
-/

namespace TinyOS

open Transition Align

/-! ## The program -/

/-- `core::alloc::Layout`, with what its constructor checks, and the size that
`GlobalAlloc::alloc` requires not to be zero. -/
structure Layout where
  size : UInt64
  align : UInt64
  align_pow : ∃ k, align.toNat = 2 ^ k
  size_pos : 0 < size.toNat
  fits : roundUp size.toNat align.toNat ≤ 2 ^ 63 - 1

/-- `HEAP_SIZE`: the bytes of the heap, one MiB, which the offsets never exceed. -/
def heapSize : UInt64 := (1 : UInt64) <<< 20

/-- The heap, by the address of its `buf`. A static object of this size ends below `2 ^ 63`. -/
structure BumpHeap where
  base : UInt64
  fits : base.toNat + heapSize.toNat < 2 ^ 63

namespace BumpHeap

/-- `aligned` in the loop of `alloc`: the first address from the offset on that has the
alignment. -/
def aligned (heap : BumpHeap) (layout : Layout) (off : UInt64) : UInt64 :=
  (heap.base + off + layout.align - 1) &&& ~~~(layout.align - 1)

/-- `new_off` in the loop of `alloc`: the offset behind the object, from the start of `buf`. -/
def newOff (heap : BumpHeap) (layout : Layout) (off : UInt64) : UInt64 :=
  heap.aligned layout off - heap.base + layout.size

/-- What a thread does next in `alloc`: load `next`, or run the loop's body with `off`. -/
inductive Pc where
  | idle
  | load (layout : Layout)
  | loop (layout : Layout) (off : UInt64)

/-- What a step of a thread does. A return carries the layout and the pointer, `none` for
`core::ptr::null_mut()`. -/
inductive Event where
  | call (layout : Layout)
  | load
  | retry
  | ret (layout : Layout) (ptr : Option UInt64)

/-- The body of the loop: what it does, where the thread is afterwards and the value of `next`. -/
def body (heap : BumpHeap) (layout : Layout) (off next : UInt64) : Event × Pc × UInt64 :=
  if heap.newOff layout off > heapSize then (.ret layout none, .idle, next)
  else if next = off then
    (.ret layout (some (heap.aligned layout off)), .idle, heap.newOff layout off)
  else (.retry, .loop layout next, next)

/-- The value of the atomic `next`, and where every thread is in `alloc`. -/
structure State (T : Type) where
  next : UInt64
  pc : T → Pc

section

variable {T : Type} [DecidableEq T] (heap : BumpHeap)

/-- A step of thread `t`: a call, the first load of `next`, or a pass of the loop with its
compare-and-exchange. -/
inductive Step (s : State T) (t : T) : Event → State T → Prop where
  | call (layout : Layout) (h : s.pc t = .idle) :
      Step s t (.call layout) { s with pc := Function.update s.pc t (.load layout) }
  | load {layout : Layout} (h : s.pc t = .load layout) :
      Step s t .load { s with pc := Function.update s.pc t (.loop layout s.next) }
  | body {layout : Layout} {off : UInt64} (h : s.pc t = .loop layout off) {e : Event} {pc : Pc}
      {next : UInt64} (hbody : heap.body layout off s.next = (e, pc, next)) :
      Step s t e ⟨next, Function.update s.pc t pc⟩

/-- Any threads, any layouts, any interleaving, from a heap nothing has been allocated in. -/
def system : System (State T) (T × Event) where
  init s := s.next = 0 ∧ ∀ t, s.pc t = .idle
  step s a s' := heap.Step s a.1 a.2 s'

end

/-! ## One pass -/

/-- Every addition and subtraction of a pass gives the result it gives on natural numbers. -/
structure NoWrap (heap : BumpHeap) (layout : Layout) (off : UInt64) : Prop where
  base_add_off : heap.base.toNat + off.toNat < 2 ^ 64
  add_align : (heap.base + off).toNat + layout.align.toNat < 2 ^ 64
  sub_one : 1 ≤ (heap.base + off + layout.align).toNat
  align_sub_one : 1 ≤ layout.align.toNat
  aligned_sub_base : heap.base.toNat ≤ (heap.aligned layout off).toNat
  add_size : (heap.aligned layout off - heap.base).toNat + layout.size.toNat < 2 ^ 64

/-- What an `isize` holds leaves room for alignments up to 2^62. -/
theorem align_le (layout : Layout) : layout.align.toNat ≤ 2 ^ 62 := by
  obtain ⟨k, hk⟩ := layout.align_pow
  have hle := (align_le_roundUp layout.size_pos).trans layout.fits
  rw [hk] at hle ⊢
  refine Nat.pow_le_pow_right Nat.two_pos (Nat.le_of_lt_succ ?_)
  exact (Nat.pow_lt_pow_iff_right Nat.one_lt_two).mp (Nat.lt_of_le_of_lt hle (by decide))

/-- An alignment is a power of two, and so not zero. -/
theorem align_pos (layout : Layout) : 0 < layout.align.toNat := by
  obtain ⟨k, hk⟩ := layout.align_pow
  rw [hk]
  exact Nat.two_pow_pos k

/-- No layout is larger than `isize::MAX` bytes, since it is not even when rounded up to its
alignment. -/
theorem size_le (layout : Layout) : layout.size.toNat ≤ 2 ^ 63 - 1 :=
  (le_roundUp (align_pos layout)).trans layout.fits

section

variable (heap : BumpHeap) (layout : Layout) {off : UInt64}

/-- The address of an offset within the heap is the sum, as the heap ends below `2 ^ 63`. -/
theorem toNat_base_add_off (hoff : off.toNat ≤ heapSize.toNat) :
    (heap.base + off).toNat = heap.base.toNat + off.toNat := by
  have hfits := heap.fits
  rw [UInt64.toNat_add, Nat.mod_eq_of_lt (by omega)]

/-- Adding the alignment to that address does not wrap around either. -/
theorem toNat_add_align (hoff : off.toNat ≤ heapSize.toNat) :
    (heap.base + off + layout.align).toNat =
      heap.base.toNat + off.toNat + layout.align.toNat := by
  have hfits := heap.fits
  have halign := align_le layout
  rw [UInt64.toNat_add, toNat_base_add_off heap hoff, Nat.mod_eq_of_lt (by omega)]

/-- `aligned` is the address of the offset, rounded up to a multiple of the alignment. -/
theorem toNat_aligned (hoff : off.toNat ≤ heapSize.toNat) :
    (heap.aligned layout off).toNat =
      roundUp (heap.base.toNat + off.toNat) layout.align.toNat := by
  obtain ⟨k, hk⟩ := layout.align_pow
  have hpos := align_pos layout
  have hone : (1 : UInt64).toNat = 1 := rfl
  have hmask : (layout.align - 1).toBitVec.toNat = 2 ^ k - 1 := by
    rw [UInt64.toNat_toBitVec,
      UInt64.toNat_sub_of_le _ _ (UInt64.le_iff_toNat_le.mpr (hone ▸ hpos)), hk, hone]
  have hsub : (heap.base + off + layout.align - 1).toNat =
      heap.base.toNat + off.toNat + layout.align.toNat - 1 := by
    have hsum := toNat_add_align heap layout hoff
    rw [UInt64.toNat_sub_of_le _ _ (UInt64.le_iff_toNat_le.mpr (by omega)), hsum, hone]
  rw [aligned, ← UInt64.toNat_toBitVec, UInt64.toBitVec_and, UInt64.toBitVec_not,
    toNat_and_not_mask _ _ hmask, UInt64.toNat_toBitVec, hsub, ← hk]
  rfl

/-- `aligned` is at the offset or behind it, by less than the alignment. -/
theorem aligned_bounds (hoff : off.toNat ≤ heapSize.toNat) :
    heap.base.toNat + off.toNat ≤ (heap.aligned layout off).toNat ∧
      (heap.aligned layout off).toNat < heap.base.toNat + off.toNat + layout.align.toNat := by
  rw [toNat_aligned heap layout hoff]
  exact ⟨le_roundUp (align_pos layout), roundUp_lt (align_pos layout)⟩

/-- The aligned address lies behind the base, so that their difference is that of the numbers. -/
theorem toNat_aligned_sub_base (hoff : off.toNat ≤ heapSize.toNat) :
    (heap.aligned layout off - heap.base).toNat =
      (heap.aligned layout off).toNat - heap.base.toNat := by
  have hbounds := aligned_bounds heap layout hoff
  exact UInt64.toNat_sub_of_le _ _ (UInt64.le_iff_toNat_le.mpr (by omega))

/-- **A pass never wraps**: for an offset within the heap all its additions and subtractions are
those of natural numbers. -/
theorem noWrap (hoff : off.toNat ≤ heapSize.toNat) : NoWrap heap layout off := by
  have hfits := heap.fits
  have halign := align_le layout
  have hpos := align_pos layout
  have hsize := size_le layout
  have hbounds := aligned_bounds heap layout hoff
  have hheap : heapSize.toNat = 2 ^ 20 := rfl
  refine ⟨by omega, ?_, ?_, hpos, by omega, ?_⟩
  · rw [toNat_base_add_off heap hoff]
    omega
  · rw [toNat_add_align heap layout hoff]
    omega
  · rw [toNat_aligned_sub_base heap layout hoff]
    omega

/-- `new_off` is where the range at `aligned` ends, counted from the start of the heap. -/
theorem base_add_newOff (hoff : off.toNat ≤ heapSize.toNat) :
    heap.base.toNat + (heap.newOff layout off).toNat =
      (heap.aligned layout off).toNat + layout.size.toNat := by
  have hwrap := noWrap heap layout hoff
  have hbounds := aligned_bounds heap layout hoff
  rw [newOff, UInt64.toNat_add, Nat.mod_eq_of_lt hwrap.add_size,
    toNat_aligned_sub_base heap layout hoff]
  omega

end

/-! ## One step -/

section

variable {heap : BumpHeap} {layout : Layout} {off next next' : UInt64} {e : Event} {pc : Pc}

/-- **What a pass can do**: it finds no room and returns null, or wins the exchange and hands
out its range, or loses it and goes on with the new offset. -/
theorem body_cases (h : heap.body layout off next = (e, pc, next')) :
    (heapSize < heap.newOff layout off ∧ e = .ret layout none ∧ pc = .idle ∧ next' = next) ∨
    (heap.newOff layout off ≤ heapSize ∧ next = off ∧
      e = .ret layout (some (heap.aligned layout off)) ∧ pc = .idle ∧
      next' = heap.newOff layout off) ∨
    (heap.newOff layout off ≤ heapSize ∧ next ≠ off ∧ e = .retry ∧ pc = .loop layout next ∧
      next' = next) := by
  unfold body at h
  split at h
  · rename_i hfull
    cases h
    exact .inl ⟨hfull, rfl, rfl, rfl⟩
  · rename_i hroom
    split at h
    · rename_i heq
      cases h
      exact .inr (.inl ⟨UInt64.not_lt.mp hroom, heq, rfl, rfl, rfl⟩)
    · rename_i hne
      cases h
      exact .inr (.inr ⟨UInt64.not_lt.mp hroom, hne, rfl, rfl, rfl⟩)

/-- The range behind `p` is handed out: it is aligned, starts at `next` or behind it and ends at
`next'`, which is in the heap. -/
structure Grant (heap : BumpHeap) (layout : Layout) (p next next' : UInt64) : Prop where
  aligned : p.toNat % layout.align.toNat = 0
  start : heap.base.toNat + next.toNat ≤ p.toNat
  stop : p.toNat + layout.size.toNat = heap.base.toNat + next'.toNat
  le_heapSize : next'.toNat ≤ heapSize.toNat

/-- A successful `compare_exchange` hands out the range at `aligned`, which is aligned and lies
in the heap behind the old offset. -/
theorem grant_aligned (hnext : next.toNat ≤ heapSize.toNat)
    (h : heap.newOff layout next ≤ heapSize) :
    Grant heap layout (heap.aligned layout next) next (heap.newOff layout next) where
  aligned := by
    rw [toNat_aligned heap layout hnext]
    exact roundUp_mod
  start := (aligned_bounds heap layout hnext).1
  stop := (base_add_newOff heap layout hnext).symm
  le_heapSize := UInt64.le_iff_toNat_le.mp h

end

section

variable {T : Type} [DecidableEq T] {heap : BumpHeap} {s s' : State T} {t : T} {e : Event}

/-- **What a step does to `next`.** It hands out a range or leaves `next` alone. -/
theorem Step.next (h : heap.Step s t e s') (hnext : s.next.toNat ≤ heapSize.toNat) :
    (∃ layout p, e = .ret layout (some p) ∧ Grant heap layout p s.next s'.next) ∨
    ((∀ layout p, e ≠ .ret layout (some p)) ∧ s'.next = s.next) := by
  cases h with
  | call layout _ => exact .inr ⟨by rintro _ _ ⟨⟩, rfl⟩
  | load _ => exact .inr ⟨by rintro _ _ ⟨⟩, rfl⟩
  | @body layout off _ _ _ _ hbody =>
    rcases body_cases hbody with ⟨-, rfl, -, rfl⟩ | ⟨hle, rfl, rfl, -, rfl⟩ | ⟨-, -, rfl, -, rfl⟩
    · exact .inr ⟨by rintro _ _ ⟨⟩, rfl⟩
    · exact .inl ⟨layout, _, rfl, grant_aligned hnext hle⟩
    · exact .inr ⟨by rintro _ _ ⟨⟩, rfl⟩

/-- A step moves one thread, and gives it an offset only from `next`. -/
theorem Step.pc (h : heap.Step s t e s') : ∃ pc, s'.pc = Function.update s.pc t pc ∧
    ∀ layout off, pc = .loop layout off → off = s.next := by
  cases h with
  | call layout _ => exact ⟨.load layout, rfl, by rintro _ _ ⟨⟩⟩
  | @load layout _ => exact ⟨.loop layout s.next, rfl, by rintro _ _ ⟨⟩; rfl⟩
  | @body _ _ _ _ pc _ hbody =>
    refine ⟨pc, rfl, ?_⟩
    rcases body_cases hbody with ⟨-, -, rfl, -⟩ | ⟨-, -, -, rfl, -⟩ | ⟨-, -, -, rfl, -⟩
    · rintro _ _ ⟨⟩
    · rintro _ _ ⟨⟩
    · rintro _ _ ⟨⟩
      rfl

end

/-! ## Runs -/

section

variable {T : Type} {heap : BumpHeap} {s s' : State T} {tr : List (T × Event)}

/-- The range a step hands out: the bytes of the layout from the returned pointer on. -/
def grant : T × Event → Option Region
  | (_, .ret layout (some p)) => some ⟨p.toNat, layout.size.toNat⟩
  | _ => none

/-- What every step keeps, with the steps `tr` made so far. -/
structure Inv (heap : BumpHeap) (tr : List (T × Event)) (s : State T) : Prop where
  next_le : s.next.toNat ≤ heapSize.toNat
  off_le : ∀ t layout off, s.pc t = .loop layout off → off.toNat ≤ heapSize.toNat
  stacked : Region.Stacked heap.base.toNat (heap.base.toNat + s.next.toNat) (tr.filterMap grant)
  aligned : ∀ t layout p, (t, .ret layout (some p)) ∈ tr → p.toNat % layout.align.toNat = 0

/-- A step that returns no pointer hands out nothing: calls, loads, retries and null. -/
theorem grant_eq_none {t : T} {e : Event} (h : ∀ layout p, e ≠ .ret layout (some p)) :
    grant (t, e) = none := by
  cases e with
  | ret layout ptr =>
    cases ptr with
    | none => rfl
    | some p => exact absurd rfl (h layout p)
  | call | load | retry => rfl

variable [DecidableEq T]

/-- Steps keep the invariant: a range is only handed out behind those before it. -/
theorem Inv.step {a : T × Event} (h : Inv heap tr s) (ha : (system heap).step s a s') :
    Inv heap (tr ++ [a]) s' := by
  obtain ⟨t, e⟩ := a
  have hoff : ∀ u layout off, s'.pc u = .loop layout off → off.toNat ≤ heapSize.toNat := by
    obtain ⟨pc, hpc, hloop⟩ := Step.pc ha
    rw [hpc]
    refine (Function.forall_update_iff s.pc fun _ pc => ∀ layout off, pc = .loop layout off →
      off.toNat ≤ heapSize.toNat).mpr ⟨?_, fun u _ => h.off_le u⟩
    intro layout off hoff
    rw [hloop layout off hoff]
    exact h.next_le
  rcases Step.next ha h.next_le with ⟨layout, p, rfl, hg⟩ | ⟨hnone, hnext⟩
  · refine ⟨hg.le_heapSize, hoff, ?_, fun u l q hmem => ?_⟩
    · rw [List.filterMap_append]
      exact h.stacked.snoc hg.start (Nat.le_of_eq hg.stop)
    · rcases List.mem_append.mp hmem with hmem | hmem
      · exact h.aligned u l q hmem
      · cases List.mem_singleton.mp hmem
        exact hg.aligned
  · refine ⟨hnext ▸ h.next_le, hoff, ?_, fun u l q hmem => ?_⟩
    · rw [List.filterMap_append, List.filterMap_cons_none (grant_eq_none hnone),
        List.filterMap_nil, List.append_nil, hnext]
      exact h.stacked
    · rcases List.mem_append.mp hmem with hmem | hmem
      · exact h.aligned u l q hmem
      · cases List.mem_singleton.mp hmem
        exact absurd rfl (hnone l q)

/-- **The ranges of a run are stacked.** The invariant holds along every run. -/
theorem run_inv {s₀ : State T} (h₀ : (system heap).init s₀) (hrun : (system heap).Run s₀ tr s) :
    Inv heap tr s := by
  refine hrun.history (I := Inv heap) ?_ fun tr s a s' hinv ha => hinv.step ha
  obtain ⟨hnext, hidle⟩ := h₀
  refine ⟨?_, fun t layout off ht => ?_, ?_, fun t layout p hmem => ?_⟩
  · rw [hnext]
    exact Nat.zero_le _
  · rw [hidle] at ht
    cases ht
  · exact Nat.le_add_right _ _
  · cases hmem

/-- **The heap is safe under any concurrency.** After any interleaving of any calls of `alloc`:
no pass that a thread is in wraps; every pointer returned is aligned and its range is in the
buffer (so it is null only if the buffer is at address 0); the ranges returned are pairwise
disjoint; and a step never decreases `next`, which changes only when a pointer is returned. -/
theorem run_safe {s₀ : State T} (h₀ : (system heap).init s₀) (hrun : (system heap).Run s₀ tr s) :
    (∀ t layout off, s.pc t = .loop layout off → NoWrap heap layout off) ∧
    (∀ t layout p, (t, .ret layout (some p)) ∈ tr →
      p.toNat % layout.align.toNat = 0 ∧
      Set.Ico p.toNat (p.toNat + layout.size.toNat) ⊆
        Set.Ico heap.base.toNat (heap.base.toNat + heapSize.toNat) ∧
      (heap.base ≠ 0 → p ≠ 0)) ∧
    (tr.filterMap grant).Pairwise (fun r r' => Disjoint r.places r'.places) ∧
    (∀ t e s', (system heap).step s (t, e) s' → s.next ≤ s'.next ∧
      ((∀ layout p, e ≠ .ret layout (some p)) → s'.next = s.next)) := by
  have hinv := run_inv h₀ hrun
  refine ⟨fun t layout off ht => noWrap heap layout (hinv.off_le t layout off ht),
    fun t layout p hmem => ?_, hinv.stacked.pairwise, fun t e s' hs => ?_⟩
  · obtain ⟨hstart, hstop⟩ := hinv.stacked.bounds.2 ⟨p.toNat, layout.size.toNat⟩
      (List.mem_filterMap.mpr ⟨_, hmem, rfl⟩)
    dsimp only at hstart hstop
    have hnext := hinv.next_le
    refine ⟨hinv.aligned t layout p hmem, Set.Ico_subset_Ico hstart (by omega), ?_⟩
    rintro hbase rfl
    exact hbase (UInt64.toNat_inj.mp (Nat.le_zero.mp hstart))
  · rcases Step.next hs hinv.next_le with ⟨layout, p, rfl, hg⟩ | ⟨hnone, hnext⟩
    · refine ⟨UInt64.le_iff_toNat_le.mpr ?_, fun hnone => absurd rfl (hnone layout p)⟩
      have hstart := hg.start
      have hstop := hg.stop
      omega
    · exact ⟨hnext ▸ UInt64.le_refl _, fun _ => hnext⟩

/-- One more step of a run, by the thread and the event of that step. -/
theorem run_snoc {s₀ : State T} (hrun : (system heap).Run s₀ tr s) (t : T) (e : Event)
    (h : heap.Step s t e s') : (system heap).Run s₀ (tr ++ [(t, e)]) s' :=
  hrun.snoc h

/-- A heap whose buffer is at 0x80400004, an address that is aligned to four bytes only. -/
def sampleHeap : BumpHeap := ⟨0x80400004, by decide⟩

/-- The layout of eight bytes that are aligned to eight. -/
def word : Layout := ⟨8, 8, ⟨3, rfl⟩, by decide, by decide⟩

/-- Two threads load the same offset. One gets the first word of the buffer; the other retries and
gets the second. -/
theorem run_safe_two_threads : ∃ tr s, (system sampleHeap).Run ⟨0, fun _ : Bool => .idle⟩ tr s ∧
    tr.filterMap grant = [⟨0x80400008, 8⟩, ⟨0x80400010, 8⟩] ∧
    (tr.filterMap grant).Pairwise (fun r r' => Disjoint r.places r'.places) := by
  have h₀ : (system sampleHeap).Run ⟨0, fun _ : Bool => .idle⟩ [] _ := .nil _
  have h₁ := run_snoc h₀ false (.call word) (.call word rfl)
  have h₂ := run_snoc h₁ true (.call word) (.call word rfl)
  have h₃ := run_snoc h₂ false .load (.load rfl)
  have h₄ := run_snoc h₃ true .load (.load rfl)
  have h₅ := run_snoc h₄ false (.ret word (some 0x80400008)) (.body rfl rfl)
  have h₆ := run_snoc h₅ true .retry (.body rfl rfl)
  have h₇ := run_snoc h₆ true (.ret word (some 0x80400010)) (.body rfl rfl)
  exact ⟨_, _, h₇, rfl, (run_safe ⟨rfl, fun _ => rfl⟩ h₇).2.2.1⟩

end

end BumpHeap

end TinyOS
