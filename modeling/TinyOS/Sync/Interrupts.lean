import TinyOS.Lib.Transition

/-!
# Masking interrupts

`disable_and_save` and `restore` of `phase_3_sync/src/arch/interrupts.rs` on one hart. Every
`IrqState` that has been taken is restored once, in any order; a `SpinLockGuard` holds one from
`lock` to `drop`. Others may write `sstatus` as well, but not its bit `SIE`.

There is no nesting counter: a saved state is the bit as it was, and `restore` can only set it. So
at most one of the states that are out has the bit, and the last one back restores it
(`run_given_back`). In between, that state may be restored before the others, and then interrupts
are enabled in an open critical section (`overlap_unmasked`); nested sections do not do that
(`nested_masked`).
-/

namespace TinyOS.Interrupts

open Transition

/-! ## The two functions -/

/-- `SIE`, the bit of `sstatus` that enables interrupts in supervisor mode. -/
def sie : UInt64 := (1 : UInt64) <<< 1

/-- `struct IrqState`: the bits of `sstatus` that `disable_and_save` has found. -/
structure IrqState where
  bits : UInt64
  deriving DecidableEq

/-- `disable_and_save`: the state it returns, with the bit as it was, and the new `sstatus`,
without it. -/
def disableAndSave (sstatus : UInt64) : IrqState × UInt64 := (⟨sstatus &&& sie⟩, sstatus &&& ~~~sie)

/-- `restore`: the new `sstatus`. The bit is set if the state has it, and never cleared. -/
def restore (state : IrqState) (sstatus : UInt64) : UInt64 :=
  if state.bits &&& sie ≠ 0 then sstatus ||| sie else sstatus

/-- The saved bit is set: interrupts were enabled when the state was taken. -/
def IrqState.Enabled (state : IrqState) : Prop := state.bits &&& sie ≠ 0

/-- Whether the saved bit is set can be evaluated. -/
instance (state : IrqState) : Decidable state.Enabled := inferInstanceAs (Decidable (_ ≠ _))

/-- Restoring a state that has the bit enables interrupts, whoever else may have disabled them
meanwhile. -/
theorem restore_of_enabled {state : IrqState} (h : state.Enabled) (x : UInt64) :
    restore state x = x ||| sie := if_pos h

/-- Restoring a state that does not have the bit changes nothing. -/
theorem restore_of_not_enabled {state : IrqState} (h : ¬ state.Enabled) (x : UInt64) :
    restore state x = x := if_neg h

/-! ## A hart -/

/-- A hart with the states that have been taken and not yet restored, the last one first. -/
structure Hart where
  sstatus : UInt64
  saved : List IrqState

/-- Interrupts are enabled on the hart: the bit `SIE` of `sstatus` is set. -/
def Hart.Enabled (s : Hart) : Prop := s.sstatus &&& sie ≠ 0

/-- Whether interrupts are enabled can be evaluated. -/
instance (s : Hart) : Decidable s.Enabled := inferInstanceAs (Decidable (_ ≠ _))

/-- What happens on a hart: a call of one of the two functions, or another write of `sstatus`. -/
inductive Op where
  | save
  | restore (state : IrqState)
  | other

/-- One call on a hart; any of the states that have been taken may be the one to be restored. -/
inductive Step (s : Hart) : Op → Hart → Prop where
  | save : Step s .save ⟨(disableAndSave s.sstatus).2, (disableAndSave s.sstatus).1 :: s.saved⟩
  | restore {state : IrqState} (h : state ∈ s.saved) :
      Step s (.restore state) ⟨restore state s.sstatus, s.saved.erase state⟩
  /-- A write of `sstatus` that leaves `SIE` alone. -/
  | other {sstatus : UInt64} (h : sstatus &&& sie = s.sstatus &&& sie) :
      Step s .other ⟨sstatus, s.saved⟩

/-- Any sequence of calls, from any `sstatus` and with no state taken yet. -/
def system : System Hart Op where
  init s := s.saved = []
  step := Step

/-! ## The bit -/

variable {s s' : Hart} {state : IrqState} {a : Op}

/-- Masking with `SIE` leaves the value of the bit, at its place, and nothing else. -/
theorem toNat_and_sie (x : UInt64) : (x &&& sie).toNat = (x.toNat.testBit 1).toNat * 2 ^ 1 := by
  rw [UInt64.toNat_and, ← Nat.and_two_pow]
  rfl

/-- The other bits are masked out, so that what is left tells whether interrupts are enabled. -/
theorem Hart.and_sie (s : Hart) : s.sstatus &&& sie = if s.Enabled then sie else 0 := by
  split
  · rename_i h
    apply UInt64.toNat_inj.mp
    rw [toNat_and_sie]
    cases hb : s.sstatus.toNat.testBit 1 with
    | true => rfl
    | false => exact absurd (UInt64.toNat_inj.mp ((toNat_and_sie _).trans (by rw [hb]; rfl))) h
  · rename_i h
    exact not_not.mp h

/-- After `disable_and_save` interrupts are masked, whether or not they were before. -/
theorem and_not_sie (x : UInt64) : x &&& ~~~sie &&& sie = 0 := by
  rw [UInt64.and_assoc, UInt64.and_comm (~~~sie), UInt64.and_not_self, UInt64.and_zero]

/-- After `restore` of an enabled state they are enabled, whether or not they were before. -/
theorem or_sie (x : UInt64) : (x ||| sie) &&& sie ≠ 0 := by
  intro h
  have hbit := toNat_and_sie (x ||| sie)
  rw [h, UInt64.toNat_or, Nat.testBit_or, show sie.toNat.testBit 1 = true from rfl,
    Bool.or_true] at hbit
  cases hbit

/-- Masking twice with `SIE` is masking once, so that a saved state has the bit as it was. -/
theorem and_sie_and_sie (x : UInt64) : x &&& sie &&& sie = x &&& sie := by
  rw [UInt64.and_assoc, UInt64.and_self]

/-! ## The state is given back -/

/-- How many of the saved states and of the hart itself have the bit. -/
def Hart.bits (s : Hart) : Nat :=
  s.saved.countP (fun state => state.Enabled) + if s.Enabled then 1 else 0

/-- The number of bits depends only on which states have the bit and whether interrupts are
enabled. -/
theorem Hart.bits_congr (hc : s'.saved.countP (fun state => state.Enabled) =
    s.saved.countP (fun state => state.Enabled)) (he : s'.Enabled ↔ s.Enabled) :
    s'.bits = s.bits := by
  simp only [Hart.bits, hc, he]

/-- **A step moves the bit, if there is one, between the hart and the saved states.** -/
theorem bits_step (h : Step s a s') (hle : s.bits ≤ 1) : s'.bits = s.bits := by
  cases h with
  | save =>
    have hoff : ¬ Hart.Enabled
        ⟨(disableAndSave s.sstatus).2, (disableAndSave s.sstatus).1 :: s.saved⟩ :=
      not_not.mpr (and_not_sie s.sstatus)
    have hsaved : (disableAndSave s.sstatus).1.Enabled ↔ s.Enabled := by
      rw [IrqState.Enabled, disableAndSave, and_sie_and_sie, Hart.Enabled]
    simp only [Hart.bits, List.countP_cons, hoff, hsaved, decide_eq_true_eq, if_false, Nat.add_zero]
  | @restore state hmem =>
    have hcount := (List.perm_cons_erase hmem).countP_eq fun st => st.Enabled
    rw [List.countP_cons] at hcount
    by_cases hen : state.Enabled
    · rw [if_pos (decide_eq_true hen)] at hcount
      have hoff : ¬ s.Enabled := by
        intro hs
        rw [Hart.bits, if_pos hs] at hle
        omega
      have hon : Hart.Enabled ⟨restore state s.sstatus, s.saved.erase state⟩ := by
        rw [Hart.Enabled, restore_of_enabled hen]
        exact or_sie _
      rw [Hart.bits, Hart.bits, if_pos hon, if_neg hoff, hcount]
    · rw [if_neg fun hd => hen (of_decide_eq_true hd), Nat.add_zero] at hcount
      refine Hart.bits_congr hcount.symm ?_
      rw [Hart.Enabled, restore_of_not_enabled hen, Hart.Enabled]
  | other hkeep =>
    refine Hart.bits_congr rfl ?_
    rw [Hart.Enabled, hkeep, Hart.Enabled]

/-- The number of bits along a run: there is one if interrupts were enabled at the start, and
none otherwise. -/
theorem run_bits {s₀ : Hart} {tr : List Op} (h₀ : s₀.saved = []) (hrun : system.Run s₀ tr s) :
    s.bits = if s₀.Enabled then 1 else 0 := by
  refine hrun.invariant (I := fun s => s.bits = if s₀.Enabled then 1 else 0) ?_ ?_
  · rw [Hart.bits, h₀, List.countP_nil, Nat.zero_add]
  · intro t a u ht hs
    have hle : t.bits ≤ 1 := by
      rw [ht]
      split <;> omega
    exact (bits_step hs hle).trans ht

/-- **The interrupt-enable state is given back.** After any sequence of calls, whenever every saved
state has been restored, `SIE` is as at the start. -/
theorem run_given_back {s₀ : Hart} {tr : List Op} (h₀ : s₀.saved = [])
    (hrun : system.Run s₀ tr s) (h : s.saved = []) : s.sstatus &&& sie = s₀.sstatus &&& sie := by
  have hbits := run_bits h₀ hrun
  rw [Hart.bits, h, List.countP_nil, Nat.zero_add] at hbits
  rw [s.and_sie, s₀.and_sie]
  by_cases hs : s.Enabled
  · by_cases hs₀ : s₀.Enabled
    · rw [if_pos hs, if_pos hs₀]
    · rw [if_pos hs, if_neg hs₀] at hbits
      cases hbits
  · by_cases hs₀ : s₀.Enabled
    · rw [if_neg hs, if_pos hs₀] at hbits
      cases hbits
    · rw [if_neg hs, if_neg hs₀]

/-- Two overlapping sections, the outer one closed first: interrupts are enabled at the end, as
at the start. -/
theorem run_given_back_overlap :
    ∃ s, system.Run ⟨2, []⟩ [.save, .save, .restore ⟨2⟩, .restore ⟨0⟩] s ∧
      s.saved = [] ∧ s.sstatus &&& sie = 2 := by
  have h₁ : system.Run ⟨2, []⟩ [.save] ⟨0, [⟨2⟩]⟩ := .snoc (.nil _) .save
  have h₂ : system.Run ⟨2, []⟩ [.save, .save] ⟨0, [⟨0⟩, ⟨2⟩]⟩ := .snoc h₁ .save
  have h₃ : system.Run ⟨2, []⟩ [.save, .save, .restore ⟨2⟩] ⟨2, [⟨0⟩]⟩ :=
    .snoc h₂ (.restore (by simp))
  have h₄ : system.Run ⟨2, []⟩ [.save, .save, .restore ⟨2⟩, .restore ⟨0⟩] ⟨2, []⟩ :=
    .snoc h₃ (.restore (by simp))
  exact ⟨_, h₄, rfl, run_given_back rfl h₄ rfl⟩

/-! ## Open critical sections -/

/-- Interrupts are masked while a saved state is out: what a critical section relies on. -/
def Masked (s : Hart) : Prop := s.saved ≠ [] → s.sstatus &&& sie = 0

/-- A state whose bit is set is restored only when no other state is out. -/
def Careful (s : Hart) : Op → Prop
  | .restore state => state.Enabled → s.saved = [state]
  | .save | .other => True

/-- The sequences of calls in which every step meets the condition. -/
def carefulSystem : System Hart Op where
  init := system.init
  step s a s' := system.step s a s' ∧ Careful s a

/-- **A step keeps interrupts masked exactly if it is careful.** -/
theorem masked_step_iff (h : Masked s) (hs : Step s a s') : Masked s' ↔ Careful s a := by
  cases hs with
  | save => exact iff_of_true (fun _ => and_not_sie s.sstatus) trivial
  | other hkeep => exact iff_of_true (fun hne => hkeep.trans (h hne)) trivial
  | @restore state hmem =>
    by_cases hen : state.Enabled
    · have hon : restore state s.sstatus &&& sie ≠ 0 := by
        rw [restore_of_enabled hen]
        exact or_sie _
      constructor
      · intro hm _
        have hnil : s.saved.erase state = [] := by
          by_contra hne
          exact hon (hm hne)
        have hperm := List.perm_cons_erase hmem
        rw [hnil] at hperm
        exact List.perm_singleton.mp hperm
      · intro hc hne
        rw [hc hen, List.erase_cons_head] at hne
        exact absurd rfl hne
    · refine iff_of_true (fun _ => ?_) fun h => absurd h hen
      dsimp only
      rw [restore_of_not_enabled hen]
      exact h (List.ne_nil_of_mem hmem)

/-- **Careful sections stay masked.** In every state that careful calls reach, interrupts are masked
while a saved state is out; and the first call that is not careful enables them while another state
is out. -/
theorem careful_masked (h : carefulSystem.Reachable s) :
    Masked s ∧ ∀ a s', system.step s a s' → (Masked s' ↔ Careful s a) := by
  have hm : Masked s := by
    refine h.invariant (I := Masked) (fun s h₀ hne => absurd h₀ hne) ?_
    rintro s a s' hm ⟨hs, hc⟩
    exact (masked_step_iff hm hs).mpr hc
  exact ⟨hm, fun a s' hs => masked_step_iff hm hs⟩

/-- The inner of two sections is closed first: its state does not have the bit, and interrupts
stay masked. -/
theorem careful_masked_nested : ∃ s, carefulSystem.Reachable s ∧ s.saved = [⟨2⟩] ∧ Masked s := by
  have h₀ : carefulSystem.Reachable ⟨2, []⟩ := .of_init rfl
  have h₁ : carefulSystem.Reachable ⟨0, [⟨2⟩]⟩ := h₀.step ⟨.save, trivial⟩
  have h₂ : carefulSystem.Reachable ⟨0, [⟨0⟩, ⟨2⟩]⟩ := h₁.step ⟨.save, trivial⟩
  have h₃ : carefulSystem.Reachable ⟨0, [⟨2⟩]⟩ :=
    h₂.step (a := .restore ⟨0⟩) ⟨.restore (by simp), fun h => absurd rfl h⟩
  exact ⟨_, h₃, rfl, (careful_masked h₃).1⟩

/-- Sections that are properly nested: the state that was taken last is restored first. -/
def nestedSystem : System Hart Op where
  init := system.init
  step s a s' := system.step s a s' ∧ ∀ state, a = .restore state → s.saved.head? = some state

/-- With nested sections only the first state can have the bit. -/
theorem nested_step (hm : Masked s) (hlast : ∀ st ∈ s.saved.dropLast, ¬ st.Enabled)
    (h : nestedSystem.step s a s') :
    Masked s' ∧ ∀ st ∈ s'.saved.dropLast, ¬ st.Enabled := by
  obtain ⟨hs, hhead⟩ := h
  have hcareful : Careful s a := by
    cases a with
    | save | other => trivial
    | restore state =>
      intro hen
      obtain ⟨rest, hsaved⟩ := List.head?_eq_some_iff.mp (hhead state rfl)
      cases rest with
      | nil => exact hsaved
      | cons st rest =>
        -- the state is not the first one that was taken
        rw [hsaved, List.dropLast_cons_cons] at hlast
        exact absurd hen (hlast state List.mem_cons_self)
  refine ⟨(masked_step_iff hm hs).mpr hcareful, ?_⟩
  cases hs with
  | save =>
    cases hsaved : s.saved with
    | nil =>
      intro st hst
      cases hst
    | cons st₀ rest =>
      rw [hsaved] at hlast
      rw [List.dropLast_cons_cons]
      refine List.forall_mem_cons.mpr ⟨?_, hlast⟩
      have hoff := hm (hsaved ▸ List.cons_ne_nil _ _)
      rw [IrqState.Enabled, disableAndSave, and_sie_and_sie, hoff]
      exact not_not.mpr rfl
  | @restore state hmem =>
    obtain ⟨rest, hsaved⟩ := List.head?_eq_some_iff.mp (hhead state rfl)
    dsimp only
    rw [hsaved, List.erase_cons_head]
    intro st hst
    refine hlast st ?_
    cases rest with
    | nil => cases hst
    | cons st₀ rest =>
      rw [hsaved, List.dropLast_cons_cons]
      exact List.mem_cons_of_mem _ hst
  | other hkeep => exact hlast

/-- **Nested sections stay masked**: while a state is out, interrupts are disabled. -/
theorem nested_masked (h : nestedSystem.Reachable s) : Masked s := by
  refine (h.invariant (I := fun s => Masked s ∧ ∀ st ∈ s.saved.dropLast, ¬ st.Enabled) ?_ ?_).1
  · intro s h₀
    rw [show s.saved = [] from h₀]
    refine ⟨fun hne => absurd h₀ hne, ?_⟩
    intro st hst
    cases hst
  · rintro s a s' ⟨hm, hlast⟩ hs
    exact nested_step hm hlast hs

/-- **Two sections that overlap.** The outer one is closed first, which enables interrupts while the
inner one is open. -/
theorem overlap_unmasked : ∃ s, system.Reachable s ∧ s.saved ≠ [] ∧ s.sstatus &&& sie ≠ 0 := by
  have h₀ : system.Reachable ⟨2, []⟩ := .of_init rfl
  have h₁ : system.Reachable ⟨0, [⟨2⟩]⟩ := h₀.step .save
  have h₂ : system.Reachable ⟨0, [⟨0⟩, ⟨2⟩]⟩ := h₁.step .save
  have h₃ : system.Reachable ⟨2, [⟨0⟩]⟩ := h₂.step (a := .restore ⟨2⟩) (.restore (by simp))
  exact ⟨_, h₃, by simp, by decide⟩

end TinyOS.Interrupts
