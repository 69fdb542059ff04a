import Mathlib

/-!
# Cutting an address range at page boundaries

`cut P a b` cuts the range `[a, b)` at the multiples of `P`. The pieces are not empty, each lies in
one page, together they are the range in ascending order (`flatMap_cut`), and their pages are the
pages the range meets, one piece for each (`map_page_cut`).
-/

namespace Paging

/-- The end of the page of size `P` that contains `a`. -/
def pageEnd (P a : Nat) : Nat := (a / P + 1) * P

/-- An address lies before the end of its page, so that every piece of a range gets on. -/
theorem lt_pageEnd {P : Nat} (hP : 0 < P) (a : Nat) : a < pageEnd P a := by
  rw [pageEnd, ← Nat.div_lt_iff_lt_mul hP]
  exact Nat.lt_succ_self _

/-- The page after the one that contains `a` begins where that one ends. -/
theorem pageEnd_div {P : Nat} (hP : 0 < P) (a : Nat) : pageEnd P a / P = a / P + 1 :=
  Nat.mul_div_cancel _ hP

/-- The range `[a, b)`, cut at the multiples of `P`. -/
def cut (P a b : Nat) : List (Nat × Nat) :=
  if a < b ∧ 0 < P then (a, min (pageEnd P a) b) :: cut P (min (pageEnd P a) b) b else []
termination_by b - a
decreasing_by
  rename_i h
  have := lt_pageEnd h.2 a
  omega

/-- The numbers of the pages the range `[a, b)` meets, in ascending order. -/
def pages (P a b : Nat) : List Nat :=
  if a < b then List.range' (a / P) ((b - 1) / P + 1 - a / P) else []

variable {P : Nat}

/-- A page is listed if and only if an address of the range is in it. -/
theorem mem_pages (hP : 0 < P) {a b p : Nat} :
    p ∈ pages P a b ↔ ∃ x, a ≤ x ∧ x < b ∧ x / P = p := by
  unfold pages
  split
  · rename_i hab
    rw [List.mem_range'_1]
    constructor
    · rintro ⟨h1, h2⟩
      have hp : p * P ≤ b - 1 := (Nat.le_div_iff_mul_le hP).mp (by omega)
      refine ⟨max a (p * P), le_max_left _ _, by omega, ?_⟩
      rcases le_total a (p * P) with h | h
      · rw [max_eq_right h, Nat.mul_div_cancel _ hP]
      · rw [max_eq_left h]
        exact Nat.le_antisymm h1 ((Nat.le_div_iff_mul_le hP).mpr h)
    · rintro ⟨x, hax, hxb, rfl⟩
      have h1 : a / P ≤ x / P := Nat.div_le_div_right hax
      have h2 : x / P ≤ (b - 1) / P := Nat.div_le_div_right (by omega)
      omega
  · refine ⟨fun h => (List.not_mem_nil h).elim, ?_⟩
    rintro ⟨x, hax, hxb, -⟩
    omega

/-- The pages of a range that ends in the first page. -/
theorem pages_of_le_pageEnd (hP : 0 < P) {a b : Nat} (h : a < b) (hb : b ≤ pageEnd P a) :
    pages P a b = [a / P] := by
  have h1 : (b - 1) / P < a / P + 1 := (Nat.div_lt_iff_lt_mul hP).mpr (by
    rw [pageEnd] at hb
    omega)
  have h2 : a / P ≤ (b - 1) / P := Nat.div_le_div_right (by omega)
  rw [pages, if_pos h, show (b - 1) / P + 1 - a / P = 1 by omega]
  rfl

/-- The pages of a range that goes beyond the first page. -/
theorem pages_of_pageEnd_lt (hP : 0 < P) {a b : Nat} (hb : pageEnd P a < b) :
    pages P a b = a / P :: pages P (pageEnd P a) b := by
  have h1 : a / P + 1 ≤ (b - 1) / P := by
    rw [← pageEnd_div hP]
    exact Nat.div_le_div_right (by omega)
  rw [pages, if_pos (lt_trans (lt_pageEnd hP a) hb), pages, if_pos hb, pageEnd_div hP,
    show (b - 1) / P + 1 - a / P = (b - 1) / P + 1 - (a / P + 1) + 1 by omega, List.range'_succ]

/-- **One piece for each page** the range meets, in ascending order. -/
theorem map_page_cut (hP : 0 < P) (a b : Nat) :
    (cut P a b).map (fun c => c.1 / P) = pages P a b := by
  fun_induction cut P a b with
  | case1 a h ih =>
    rw [List.map_cons, ih]
    rcases lt_or_ge (pageEnd P a) b with hb | hb
    · rw [min_eq_left hb.le, pages_of_pageEnd_lt hP hb]
    · rw [min_eq_right hb, pages_of_le_pageEnd hP h.1 hb, pages, if_neg (lt_irrefl b)]
  | case2 a h =>
    rw [pages, if_neg fun hab => h ⟨hab, hP⟩]
    rfl

/-- Every piece is a nonempty part of one page, and lies inside the range. -/
theorem mem_cut {a b : Nat} {c : Nat × Nat} (h : c ∈ cut P a b) :
    a ≤ c.1 ∧ c.1 < c.2 ∧ c.2 ≤ b ∧ c.2 ≤ pageEnd P c.1 := by
  fun_induction cut P a b with
  | case1 a hab ih =>
    have hlt := lt_pageEnd hab.2 a
    rcases List.mem_cons.mp h with rfl | h
    · refine ⟨le_rfl, ?_, min_le_right _ _, min_le_left _ _⟩
      exact lt_min hlt hab.1
    · obtain ⟨h1, h2⟩ := ih h
      refine ⟨le_trans ?_ h1, h2⟩
      exact le_min hlt.le hab.1.le
  | case2 => cases h

/-- **The pieces together are the range**, address by address, with none left out and none twice. -/
theorem flatMap_cut (hP : 0 < P) (a b : Nat) :
    (cut P a b).flatMap (fun c => List.range' c.1 (c.2 - c.1)) = List.range' a (b - a) := by
  fun_induction cut P a b with
  | case1 a h ih =>
    have hlt := lt_pageEnd hP a
    rw [List.flatMap_cons, ih, show b - a = min (pageEnd P a) b - a + (b - min (pageEnd P a) b) by
      omega, ← List.range'_append_1,
      show a + (min (pageEnd P a) b - a) = min (pageEnd P a) b by omega]
  | case2 a h =>
    rw [show b - a = 0 by omega]
    rfl

/-- The lengths of the pieces add up to the length of the range. -/
theorem sum_cut (hP : 0 < P) (a b : Nat) : ((cut P a b).map fun c => c.2 - c.1).sum = b - a := by
  have h := congrArg List.length (flatMap_cut hP a b)
  simpa [List.length_flatMap] using h

end Paging
