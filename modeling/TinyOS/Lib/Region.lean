import Mathlib

/-!
# Consecutive regions

`Tiles a b rs`: the regions `rs` lie side by side in the order of the list, from `a` to `b`;
together they are `[a, b)`. `Stacked a b rs`: they lie in this order between `a` and `b`, with gaps
allowed. Either way they are pairwise disjoint.
-/

/-- `len` consecutive places from `start` on, such as blocks of a device. -/
structure Region where
  start : Nat
  len : Nat

namespace Region

/-- The places of a region, as a set of numbers: from its start up to, but not including, its
end. -/
def places (r : Region) : Set Nat := Set.Ico r.start (r.start + r.len)

/-- The regions lie side by side from `a` to `b`. -/
def Tiles : Nat → Nat → List Region → Prop
  | a, b, [] => a = b
  | a, b, r :: rs => r.start = a ∧ Tiles (a + r.len) b rs

variable {a b : Nat} {rs : List Region}

/-- The regions together are `[a, b)`: each place of it is in one of them, and they have no
others. -/
theorem Tiles.mem_iff (h : Tiles a b rs) (x : Nat) :
    (∃ r ∈ rs, x ∈ r.places) ↔ a ≤ x ∧ x < b := by
  suffices a ≤ b ∧ ((∃ r ∈ rs, x ∈ r.places) ↔ a ≤ x ∧ x < b) from this.2
  induction rs generalizing a with
  | nil =>
    rw [Tiles] at h
    subst h
    simp
  | cons r rs ih =>
    obtain ⟨hr, h⟩ := h
    obtain ⟨hle, hmem⟩ := ih h
    refine ⟨by omega, ?_⟩
    rw [show (∃ s ∈ r :: rs, x ∈ s.places) ↔ x ∈ r.places ∨ ∃ s ∈ rs, x ∈ s.places by simp, hmem,
      places, Set.mem_Ico, hr]
    omega

/-- The regions lie one behind the other between `a` and `b`, with gaps allowed. -/
def Stacked : Nat → Nat → List Region → Prop
  | a, b, [] => a ≤ b
  | a, b, r :: rs => a ≤ r.start ∧ Stacked (r.start + r.len) b rs

/-- One more region on top of some others, behind them with a gap or without. -/
theorem Stacked.snoc (h : Stacked a b rs) {r : Region} {c : Nat} (hb : b ≤ r.start)
    (hc : r.start + r.len ≤ c) : Stacked a c (rs ++ [r]) := by
  induction rs generalizing a with
  | nil => exact ⟨Nat.le_trans h hb, hc⟩
  | cons s rs ih => exact ⟨h.1, ih h.2⟩

/-- Stacked regions lie between the bounds they are stacked in. -/
theorem Stacked.bounds (h : Stacked a b rs) :
    a ≤ b ∧ ∀ r ∈ rs, a ≤ r.start ∧ r.start + r.len ≤ b := by
  induction rs generalizing a with
  | nil => exact ⟨h, fun r hr => by cases hr⟩
  | cons s rs ih =>
    obtain ⟨hs, h⟩ := h
    obtain ⟨hle, hrs⟩ := ih h
    refine ⟨by omega, fun r hr => ?_⟩
    rcases List.mem_cons.mp hr with rfl | hr
    · exact ⟨hs, hle⟩
    · have hr := hrs r hr
      omega

/-- Stacked regions are pairwise disjoint: no place is in two of them. -/
theorem Stacked.pairwise (h : Stacked a b rs) :
    rs.Pairwise fun r s => Disjoint r.places s.places := by
  induction rs generalizing a with
  | nil => exact .nil
  | cons r rs ih =>
    refine .cons (fun s hs => Set.disjoint_left.mpr fun x hxr hxs => ?_) (ih h.2)
    have hs := (h.2.bounds.2 s hs).1
    rw [places, Set.mem_Ico] at hxr hxs
    omega

/-- Regions side by side are stacked, with no gap between them. -/
theorem Tiles.stacked (h : Tiles a b rs) : Stacked a b rs := by
  induction rs generalizing a with
  | nil => exact Nat.le_of_eq h
  | cons r rs ih =>
    obtain ⟨rfl, h⟩ := h
    exact ⟨Nat.le_refl _, ih h⟩

/-- Regions side by side are pairwise disjoint, since they are stacked. -/
theorem Tiles.pairwise (h : Tiles a b rs) :
    rs.Pairwise fun r s => Disjoint r.places s.places :=
  h.stacked.pairwise

end Region
