import Mathlib

/-!
# Waiting for locks

A snapshot of threads and locks: which locks a thread holds and which one it waits for. A deadlock
is a cycle of threads each waiting for a lock that the next one holds. `acyclic_of_rank` rules it
out with a rank that grows along the waits that can be part of a cycle, and `Acyclic.exists_free`
says what a snapshot without cycles is good for: among finitely many threads, one is not blocked.
Where the program keeps the owner of every lock, `Consistent` relates it to what the threads hold.
-/

namespace Locks

open Relation

variable {T L : Type*}

/-- Who holds which locks and who waits for which, at one moment of a run. -/
structure Snapshot (T L : Type*) where
  held : T → L → Prop
  want : T → Option L

namespace Snapshot

variable {g : Snapshot T L}

/-- `t` waits for a lock that `u` holds: the edges of the graph a deadlock is a cycle of. -/
def WaitsFor (g : Snapshot T L) (t u : T) : Prop := ∃ l, g.want t = some l ∧ g.held u l

/-- No cycle of threads each waiting for a lock held by the next. -/
def Acyclic (g : Snapshot T L) : Prop := ∀ t, ¬ TransGen g.WaitsFor t t

/-- Along a cycle every thread is waited for and waits, so a rank need only grow from one such
thread to another. -/
theorem acyclic_of_rank {α : Type*} [Preorder α] (rank : T → α)
    (h : ∀ s t u v, g.WaitsFor s t → g.WaitsFor t u → g.WaitsFor u v → rank t < rank u) :
    g.Acyclic := by
  intro t hcycle
  obtain ⟨s, -, hst⟩ := TransGen.tail'_iff.mp hcycle
  -- a thread from which the cycle can be closed waits for some thread
  have hnext : ∀ u, ReflTransGen g.WaitsFor u t → ∃ v, g.WaitsFor u v := by
    intro u hu
    obtain ⟨v, hv, -⟩ := TransGen.head'_iff.mp (hcycle.trans_right hu)
    exact ⟨v, hv⟩
  suffices ∀ u, TransGen g.WaitsFor t u → ReflTransGen g.WaitsFor u t → rank t < rank u from
    lt_irrefl _ (this t hcycle .refl)
  intro u hu
  induction hu with
  | single htu =>
    intro hback
    obtain ⟨v, huv⟩ := hnext _ hback
    exact h s t _ v hst htu huv
  | @tail u v htu huv ih =>
    intro hback
    obtain ⟨w, hvw⟩ := hnext _ hback
    obtain ⟨r, -, hru⟩ := TransGen.tail'_iff.mp htu
    exact (ih (.head huv hback)).trans (h r u v w hru huv hvw)

/-- **The order rule.** If every thread waits for a lock that comes after the locks it holds, there
is no cycle. -/
theorem acyclic_of_ascending (number : L → ℕ)
    (h : ∀ t l, g.want t = some l → ∀ l', g.held t l' → number l' < number l) : g.Acyclic := by
  refine acyclic_of_rank (fun t => ((g.want t).map number).getD 0) ?_
  rintro s t u v - ⟨l, hl, hul⟩ ⟨l', hl', -⟩
  rw [hl, hl']
  exact h u l' hl' l hul

/-- **Among finitely many threads without a cycle, one is not blocked.** -/
theorem Acyclic.exists_free [Finite T] [Nonempty T] (h : g.Acyclic) :
    ∃ t, ∀ l, g.want t = some l → ∀ u, ¬ g.held u l := by
  have hwf : WellFounded (fun t u => TransGen g.WaitsFor u t) :=
    haveI : IsTrans T fun t u => TransGen g.WaitsFor u t := ⟨fun _ _ _ h₁ h₂ => h₂.trans h₁⟩
    haveI : Std.Irrefl fun t u => TransGen g.WaitsFor u t := ⟨h⟩
    Finite.wellFounded_of_trans_of_irrefl _
  obtain ⟨t, -, ht⟩ := hwf.has_min Set.univ Set.univ_nonempty
  exact ⟨t, fun l hl u hu => ht u trivial (.single ⟨l, hl, hu⟩)⟩

end Snapshot

/-! ## Owners -/

/-- Every lock is with the thread that holds it, as the owners that are recorded have it. -/
def Consistent (owner : L → Option T) (held : T → L → Prop) : Prop :=
  ∀ l t, owner l = some t ↔ held t l

namespace Consistent

variable {owner : L → Option T} {held held' : T → L → Prop} {t u : T} {l : L}

/-- A lock is held by one thread only, since it has one owner at most. -/
theorem unique (h : Consistent owner held) (ht : held t l) (hu : held u l) : t = u :=
  Option.some.inj (((h l t).mpr ht).symm.trans ((h l u).mpr hu))

/-- A step that takes no lock and gives none back. -/
theorem congr (h : Consistent owner held) (hnew : ∀ u l', held' u l' ↔ held u l') :
    Consistent owner held' := fun l' u => (h l' u).trans (hnew u l').symm

variable [DecidableEq L]

/-- A free lock is taken by a thread: it is the owner, and the others hold what they held. -/
theorem acquire (h : Consistent owner held) (hfree : owner l = none)
    (hnew : ∀ u l', held' u l' ↔ u = t ∧ l' = l ∨ held u l') :
    Consistent (Function.update owner l (some t)) held' := by
  intro l' u
  rw [hnew]
  rcases eq_or_ne l' l with rfl | hl
  · rw [Function.update_self, Option.some_inj, ← h l' u, hfree]
    simp [eq_comm]
  · rw [Function.update_of_ne hl, h l' u]
    simp [hl]

/-- A held lock is given back: nobody owns it, and the other locks are where they were. -/
theorem release (h : Consistent owner held) (hnew : ∀ u l', held' u l' ↔ held u l' ∧ l' ≠ l) :
    Consistent (Function.update owner l none) held' := by
  intro l' u
  rw [hnew]
  rcases eq_or_ne l' l with rfl | hl
  · rw [Function.update_self]
    simp
  · rw [Function.update_of_ne hl, h l' u]
    simp [hl]

end Consistent

end Locks
