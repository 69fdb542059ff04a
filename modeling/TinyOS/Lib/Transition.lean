import Mathlib

/-!
# Labelled transition systems, their runs and their invariants

A `System` is a set of start states and a labelled step relation; a `Run` is a finite sequence of
steps together with the labels it performed. Every statement "in every reachable state", "after any
interleaving" or "in every run" of the development is a statement about `Run` or `Reachable`, and
is proved with one of the rules below: `Run.invariant` for a property of the state,
`Run.history` for a property that also mentions the labels performed so far, and
`Simulation.run` for a property transported from a more abstract system.
-/

namespace Transition

/-- A labelled transition system with states `σ` and labels `α`. -/
structure System (σ α : Type*) where
  /-- The states a run may start in. -/
  init : σ → Prop
  /-- `step s a t`: the system can move from `s` to `t` performing `a`. -/
  step : σ → α → σ → Prop

namespace System

variable {σ τ α : Type*} {S : System σ α}

/-- `S.Run s tr t`: performing the labels `tr` in order leads from `s` to `t`. The last step is the
outermost one, so an induction over a run extends a history at its end. -/
inductive Run (S : System σ α) : σ → List α → σ → Prop where
  | nil (s : σ) : Run S s [] s
  | snoc {s t u : σ} {tr : List α} {a : α} (h : Run S s tr t) (ha : S.step t a u) :
      Run S s (tr ++ [a]) u

/-- Runs compose: a run can go on with any run from the state it has reached. -/
theorem Run.append {s t u : σ} {tr tr' : List α} (h : S.Run s tr t) (h' : S.Run t tr' u) :
    S.Run s (tr ++ tr') u := by
  induction h' with
  | nil => rwa [List.append_nil]
  | snoc _ ha ih =>
    rw [← List.append_assoc]
    exact ih.snoc ha

/-- The last step of a run: what comes before it is a run as well. -/
theorem Run.of_snoc {s u : σ} {tr : List α} {a : α} (h : S.Run s (tr ++ [a]) u) :
    ∃ t, S.Run s tr t ∧ S.step t a u := by
  generalize hl : tr ++ [a] = l at h
  cases h with
  | nil => exact absurd hl (List.append_ne_nil_of_right_ne_nil _ (List.cons_ne_nil _ _))
  | snoc h ha =>
    obtain ⟨rfl, heq⟩ := List.append_inj' hl rfl
    cases heq
    exact ⟨_, h, ha⟩

/-- A run is cut where its labels are: there is a state between any two parts of them. -/
theorem Run.of_append {s u : σ} {tr tr' : List α} (h : S.Run s (tr ++ tr') u) :
    ∃ t, S.Run s tr t ∧ S.Run t tr' u := by
  induction tr' using List.reverseRecOn generalizing u with
  | nil =>
    rw [List.append_nil] at h
    exact ⟨u, h, .nil u⟩
  | append_singleton tr' a ih =>
    rw [← List.append_assoc] at h
    obtain ⟨v, hv, ha⟩ := h.of_snoc
    obtain ⟨t, ht, ht'⟩ := ih hv
    exact ⟨t, ht, ht'.snoc ha⟩

/-- The states some run leads to from a start state. -/
def Reachable (S : System σ α) (t : σ) : Prop := ∃ s tr, S.init s ∧ S.Run s tr t

/-- A start state is reachable, by the run of no steps. -/
theorem Reachable.of_init {s : σ} (h : S.init s) : S.Reachable s := ⟨s, [], h, .nil s⟩

/-- A step from a reachable state leads to a reachable one. -/
theorem Reachable.step {s t : σ} {a : α} (h : S.Reachable s) (ha : S.step s a t) :
    S.Reachable t := by
  obtain ⟨s₀, tr, h₀, hrun⟩ := h
  exact ⟨s₀, tr ++ [a], h₀, hrun.snoc ha⟩

/-- What a system can reach, a system with more start states and steps can reach too. -/
theorem Reachable.mono {S' : System σ α} {t : σ} (h : S.Reachable t)
    (hinit : ∀ s, S.init s → S'.init s) (hstep : ∀ s a u, S.step s a u → S'.step s a u) :
    S'.Reachable t := by
  obtain ⟨s, tr, h₀, hrun⟩ := h
  induction hrun with
  | nil => exact .of_init (hinit _ h₀)
  | snoc _ ha ih => exact ih.step (hstep _ _ _ ha)

/-- Where the labels determine the steps, the state after a schedule, if it can be followed, is
reachable. -/
theorem Reachable.of_schedule {next : α → σ → Option σ}
    (hnext : ∀ a s t, next a s = some t → S.step s a t) {s t : σ} (h : S.Reachable s) (l : List α)
    (hl : l.foldlM (fun s a => next a s) s = some t) : S.Reachable t := by
  induction l generalizing s with
  | nil => cases hl; exact h
  | cons a l ih =>
    rw [List.foldlM_cons] at hl
    obtain ⟨s₁, hs₁, hl⟩ := Option.bind_eq_some_iff.mp hl
    exact ih (h.step (hnext a s s₁ hs₁)) hl

/-- **The history rule.** A relation between the labels performed so far and the state reached
holds along every run as soon as every step keeps it. -/
theorem Run.history {I : List α → σ → Prop} {s t : σ} {tr : List α} (h : S.Run s tr t)
    (h₀ : I [] s) (hstep : ∀ tr t a u, I tr t → S.step t a u → I (tr ++ [a]) u) : I tr t := by
  induction h with
  | nil => exact h₀
  | snoc _ ha ih => exact hstep _ _ _ _ ih ha

/-- **The invariant rule.** A property every step keeps holds in every state of a run. -/
theorem Run.invariant {I : σ → Prop} {s t : σ} {tr : List α} (h : S.Run s tr t)
    (h₀ : I s) (hstep : ∀ t a u, I t → S.step t a u → I u) : I t :=
  h.history (I := fun _ t => I t) h₀ fun _ t a u => hstep t a u

/-- The invariant rule over the reachable states: what holds at the start and is kept by every
step holds of all of them. -/
theorem Reachable.invariant {I : σ → Prop} {t : σ} (h : S.Reachable t)
    (h₀ : ∀ s, S.init s → I s) (hstep : ∀ t a u, I t → S.step t a u → I u) : I t := by
  obtain ⟨s, tr, hs, hrun⟩ := h
  exact hrun.invariant (h₀ s hs) hstep

/-- `S.Through s tr t w`: performing `tr` from `s` can lead through `w` to `t`. -/
def Through (S : System σ α) (s : σ) (tr : List α) (t w : σ) : Prop :=
  ∃ pre post, tr = pre ++ post ∧ S.Run s pre w ∧ S.Run w post t

/-- A run leads through its last state, with nothing left to be done after it. -/
theorem Through.last {s t : σ} {tr : List α} (h : S.Run s tr t) : S.Through s tr t t :=
  ⟨tr, [], (List.append_nil tr).symm, h, .nil t⟩

/-- A longer run leads through the same states as the run it goes on from. -/
theorem Through.snoc {s t u w : σ} {tr : List α} {a : α} (h : S.Through s tr t w)
    (ha : S.step t a u) : S.Through s (tr ++ [a]) u w := by
  obtain ⟨pre, post, rfl, hpre, hpost⟩ := h
  exact ⟨pre, post ++ [a], List.append_assoc .., hpre, hpost.snoc ha⟩

/-- `R` is a forward simulation of `C` by `A`, label by label. -/
structure Simulation (C : System σ α) (A : System τ α) (R : σ → τ → Prop) : Prop where
  init : ∀ s, C.init s → ∃ t, A.init t ∧ R s t
  step : ∀ s a s' t, R s t → C.step s a s' → ∃ t', A.step t a t' ∧ R s' t'

/-- **The simulation rule.** Every run of the concrete system is a run of the abstract one, with
the same labels and related end states. -/
theorem Simulation.run {C : System σ α} {A : System τ α} {R : σ → τ → Prop}
    (h : Simulation C A R) {s s' : σ} {t : τ} {tr : List α} (hR : R s t) (hrun : C.Run s tr s') :
    ∃ t', A.Run t tr t' ∧ R s' t' :=
  hrun.history (I := fun tr s' => ∃ t', A.Run t tr t' ∧ R s' t') ⟨t, .nil t, hR⟩
    fun tr s a s' ⟨t₁, hrun₁, hR₁⟩ ha => by
      obtain ⟨t₂, ha₂, hR₂⟩ := h.step s a s' t₁ hR₁ ha
      exact ⟨t₂, hrun₁.snoc ha₂, hR₂⟩

end System

end Transition
