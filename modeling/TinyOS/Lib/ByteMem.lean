import Mathlib

/-!
# Lists in memory

A memory maps addresses to cells. `overwrite` stores a list from an address on and `cells` reads one
back. `paste` stores a list in pieces of `P` cells, piece `i` in frame `f i`; if the frames are
distinct, cell `k` of the list is at `place P f k` in the end (`paste_place`), and nothing else has
changed (`paste_of_ne`). `patch` puts a list in place of the beginning of another one; done part by
part, that is the same as done at once only if nothing follows after a part that was not filled
(`flatMap_patch`, `pairwise_of_flatMap_patch`).
-/

namespace ByteMem

variable {α : Type}

/-- The memory with the list `l` stored from `a` on. -/
def overwrite (mem : Nat → α) (a : Nat) (l : List α) : Nat → α := fun b =>
  if h : a ≤ b ∧ b - a < l.length then l[b - a] else mem b

/-- The `n` cells from `a` on, as a list. -/
def cells (mem : Nat → α) (a n : Nat) : List α := (List.range' a n).map mem

section

variable {mem mem' : Nat → α} {a b n k : Nat} {l : List α}

/-- A list that was stored has its elements in the cells from its address on. -/
theorem overwrite_add (h : k < l.length) : overwrite mem a l (a + k) = l[k] := by
  rw [overwrite, dif_pos ⟨Nat.le_add_right a k, by omega⟩]
  simp only [Nat.add_sub_cancel_left]

/-- The cells before and behind a list that was stored are as before. -/
theorem overwrite_of_outside (h : b < a ∨ a + l.length ≤ b) : overwrite mem a l b = mem b :=
  dif_neg (by omega)

/-- Reading back `n` cells gives a list of `n` elements. -/
theorem length_cells : (cells mem a n).length = n := by
  rw [cells, List.length_map, List.length_range']

/-- The elements that are read back are those of the cells, in their order. -/
theorem getElem_cells (h : k < (cells mem a n).length) : (cells mem a n)[k] = mem (a + k) := by
  simp [cells]

/-- What is read back depends on the cells in the range only. -/
theorem cells_congr (h : ∀ k < n, mem' (a + k) = mem (a + k)) : cells mem' a n = cells mem a n := by
  refine List.ext_getElem (by rw [length_cells, length_cells]) fun k hk hk' => ?_
  rw [getElem_cells, getElem_cells]
  exact h k (by rwa [length_cells] at hk)

/-- A list that was just stored is read back: the cells from its address on are its elements. -/
theorem cells_overwrite : cells (overwrite mem a l) a l.length = l := by
  refine List.ext_getElem length_cells fun k hk hk' => ?_
  rw [getElem_cells, overwrite_add hk']

/-- A list stored elsewhere is not seen: the cells read back are as before. -/
theorem cells_overwrite_of_disjoint (h : a + n ≤ b ∨ b + l.length ≤ a) :
    cells (overwrite mem b l) a n = cells mem a n :=
  cells_congr fun k hk => overwrite_of_outside (by omega)

/-- A list that is continued by `d` is the same `o` places further on only if it is all `d`. -/
theorem getD_add_eq_iff {o : Nat} {d : α} :
    (∀ k (hk : k < l.length), l.getD (o + k) d = l[k]) ↔ o = 0 ∨ ∀ x ∈ l, x = d := by
  constructor
  · intro h
    refine or_iff_not_imp_left.mpr fun ho x hx => ?_
    obtain ⟨k, hk, rfl⟩ := List.getElem_of_mem hx
    -- the element `o` places further on is the same and nearer to the end
    induction hn : l.length - k using Nat.strong_induction_on generalizing k with
    | _ n ih =>
      rw [← h k hk]
      rcases Nat.lt_or_ge (o + k) l.length with hlt | hge
      · rw [List.getD_eq_getElem _ _ hlt]
        exact ih _ (by omega) (o + k) hlt (List.getElem_mem hlt) rfl
      · exact List.getD_eq_default _ _ hge
  · rintro (rfl | h) k hk
    · rw [Nat.zero_add, List.getD_eq_getElem _ _ hk]
    · rw [h _ (List.getElem_mem hk)]
      rcases Nat.lt_or_ge (o + k) l.length with hlt | hge
      · rw [List.getD_eq_getElem _ _ hlt]
        exact h _ (List.getElem_mem hlt)
      · exact List.getD_eq_default _ _ hge

end

/-! ## Lists over frames -/

section

variable {P : Nat} {f : Nat → Nat} {l : List α} {mem : Nat → α} {n k b : Nat}

/-- Where cell `k` of a list is, if piece `i` of it is in frame `f i`. -/
def place (P : Nat) (f : Nat → Nat) (k : Nat) : Nat := f (k / P) * P + k % P

/-- Piece `i` of a list that is cut into pieces of `P`; the last one may be shorter. -/
def piece (P : Nat) (l : List α) (i : Nat) : List α := (l.drop (i * P)).take P

/-- The memory with the first `n` pieces of a list stored, each in its frame. -/
def paste (P : Nat) (f : Nat → Nat) (l : List α) (n : Nat) (mem : Nat → α) : Nat → α :=
  (List.range n).foldl (fun m i => overwrite m (f i * P) (piece P l i)) mem

/-- Storing one more piece is storing the pieces before it and then this one. -/
theorem paste_succ : paste P f l (n + 1) mem =
    overwrite (paste P f l n mem) (f n * P) (piece P l n) := by
  rw [paste, List.range_succ, List.foldl_append]
  rfl

/-- A piece has `P` elements, or what is left of the list. -/
theorem length_piece (i : Nat) : (piece P l i).length = min P (l.length - i * P) := by
  rw [piece, List.length_take, List.length_drop]

/-- A cell of piece `i` is in the frame of this piece, as far in as it is in the piece. -/
theorem place_mul_add {i j : Nat} (h : j < P) : place P f (i * P + j) = f i * P + j := by
  have hP : 0 < P := Nat.lt_of_le_of_lt (Nat.zero_le j) h
  have hdiv : (i * P + j) / P = i := by
    rw [Nat.add_comm, Nat.add_mul_div_right _ _ hP, Nat.div_eq_of_lt h, Nat.zero_add]
  have hmod : (i * P + j) % P = j := by
    rw [Nat.add_comm, Nat.add_mul_mod_self_right, Nat.mod_eq_of_lt h]
  rw [place, hdiv, hmod]

/-- The frame a cell is in is that of its piece. -/
theorem place_div (hP : 0 < P) (k : Nat) : place P f k / P = f (k / P) := by
  rw [place, Nat.add_comm, Nat.add_mul_div_right _ _ hP, Nat.div_eq_of_lt (Nat.mod_lt k hP),
    Nat.zero_add]

/-- **Nothing else changes**: a cell that is the place of no cell of the pieces is as before. -/
theorem paste_of_ne (h : ∀ k < l.length, k / P < n → place P f k ≠ b) :
    paste P f l n mem b = mem b := by
  induction n with
  | zero => rfl
  | succ n ih =>
    rw [paste_succ, overwrite_of_outside]
    · exact ih fun k hk hkn => h k hk (Nat.lt_succ_of_lt hkn)
    · -- a cell of piece `n` would be at `b`
      by_contra hb
      rw [length_piece] at hb
      have hj : b - f n * P < P := by omega
      have hP : 0 < P := by omega
      refine h (n * P + (b - f n * P)) (by omega) ?_ ?_
      · rw [Nat.div_lt_iff_lt_mul hP, Nat.succ_mul]
        omega
      · rw [place_mul_add hj]
        omega

/-- **The list is in its frames**, if these are distinct: every cell of a stored piece is at its
place. -/
theorem paste_place (hinj : ∀ i < n, ∀ j < n, f i = f j → i = j) (hk : k < l.length)
    (hn : k / P < n) (hP : 0 < P) : paste P f l n mem (place P f k) = l[k] := by
  induction n with
  | zero => exact absurd hn (Nat.not_lt_zero _)
  | succ n ih =>
    have hmod := Nat.mod_lt k hP
    have hdiv := Nat.div_add_mod' k P
    rw [paste_succ]
    rcases Nat.lt_or_eq_of_le (Nat.le_of_lt_succ hn) with hlt | heq
    · rw [overwrite_of_outside]
      · exact ih (fun i hi j hj => hinj i (Nat.lt_succ_of_lt hi) j (Nat.lt_succ_of_lt hj)) hlt
      · -- the frames `f (k / P)` and `f n` differ
        by_contra hb
        rw [length_piece] at hb
        have hframe : place P f k / P = f n := by
          rw [Nat.div_eq_iff hP]
          omega
        rw [place_div hP] at hframe
        have := hinj _ (Nat.lt_succ_of_lt hlt) _ (Nat.lt_succ_self n) hframe
        omega
    · have hlen : k % P < (piece P l n).length := by
        rw [length_piece, ← heq]
        omega
      rw [place, heq, overwrite_add hlen]
      simp only [piece, List.getElem_take, List.getElem_drop]
      congr 1
      rw [← heq]
      exact hdiv

end

/-! ## Lists in parts -/

section

/-- The list `old` with `d` in place of its beginning. -/
def patch (d old : List α) : List α := d ++ old.drop d.length

/-- A list with another one in place of its beginning is as long as before, if that one fits. -/
theorem length_patch {d old : List α} (h : d.length ≤ old.length) :
    (patch d old).length = old.length := by
  rw [patch, List.length_append, List.length_drop]
  omega

/-- Nothing is put into a part after one that was not filled. A part is what is put into it and what
it was before. -/
def FilledInOrder (ps : List (List α × List α)) : Prop :=
  ps.Pairwise fun p q => p.1.length < p.2.length → q.1 = []

variable {ps : List (List α × List α)}

/-- If nothing is put into any part, then nothing is put in altogether. -/
theorem flatMap_fst_eq_nil (h : ∀ p ∈ ps, p.1 = []) : ps.flatMap Prod.fst = [] := by
  rw [List.flatMap_eq_nil_iff]
  exact h

/-- If nothing is put into any part, nothing changes: the parts together are what they were. -/
theorem flatMap_patch_of_nil (h : ∀ p ∈ ps, p.1 = []) :
    (ps.flatMap fun p => patch p.1 p.2) = ps.flatMap Prod.snd := by
  refine List.flatMap_congr fun p hp => ?_
  rw [patch, h p hp]
  rfl

/-- **Parts that are filled in order** are filled as one list is. -/
theorem flatMap_patch (hle : ∀ p ∈ ps, p.1.length ≤ p.2.length) (h : FilledInOrder ps) :
    (ps.flatMap fun p => patch p.1 p.2) = patch (ps.flatMap Prod.fst) (ps.flatMap Prod.snd) := by
  induction ps with
  | nil => rfl
  | cons p ps ih =>
    obtain ⟨hfirst, hrest⟩ := List.pairwise_cons.mp h
    rw [List.flatMap_cons, List.flatMap_cons, List.flatMap_cons]
    rcases Nat.lt_or_eq_of_le (hle p List.mem_cons_self) with hlt | heq
    · have hnil : ∀ q ∈ ps, q.1 = [] := fun q hq => hfirst q hq hlt
      rw [flatMap_patch_of_nil hnil, flatMap_fst_eq_nil hnil, List.append_nil, patch, patch,
        List.append_assoc, List.drop_append_of_le_length hlt.le]
    · have hfull : patch p.1 p.2 = p.1 := by
        rw [patch, heq, List.drop_length, List.append_nil]
      rw [ih (fun q hq => hle q (List.mem_cons_of_mem _ hq)) hrest, hfull, patch, patch,
        List.append_assoc, List.length_append, heq, List.drop_length_add_append]

/-- **The converse**, if it is so for parts of any contents. -/
theorem pairwise_of_flatMap_patch {x y : α} (hxy : x ≠ y)
    (hle : ∀ p ∈ ps, p.1.length ≤ p.2.length)
    (h : ∀ z, (ps.flatMap fun p => patch p.1 (List.replicate p.2.length z)) =
      patch (ps.flatMap Prod.fst) (ps.flatMap fun p => List.replicate p.2.length z)) :
    FilledInOrder ps := by
  induction ps with
  | nil => exact .nil
  | cons p ps ih =>
    simp only [List.flatMap_cons] at h
    rcases Nat.lt_or_eq_of_le (hle p List.mem_cons_self) with hlt | heq
    · -- behind the first part comes its old content, whatever that is
      have hnil : ps.flatMap Prod.fst = [] := by
        by_contra hne
        obtain ⟨b, l, hb⟩ := List.exists_cons_of_ne_nil hne
        have hz (z : α) : z = b := by
          have hz := congrArg (fun l => l[p.1.length]?) (h z)
          simpa [patch, hb, hlt] using hz
        exact hxy ((hz x).trans (hz y).symm)
      rw [List.flatMap_eq_nil_iff] at hnil
      refine List.pairwise_cons.mpr ⟨fun q hq _ => hnil q hq, ?_⟩
      exact List.pairwise_iff_forall_sublist.mpr fun hsub _ =>
        hnil _ (hsub.subset (List.mem_cons_of_mem _ List.mem_cons_self))
    · refine List.pairwise_cons.mpr ⟨fun q _ hlt => absurd hlt (by omega), ih ?_ fun z => ?_⟩
      · exact fun q hq => hle q (List.mem_cons_of_mem _ hq)
      · have hfull : patch p.1 (List.replicate p.2.length z) = p.1 := by
          rw [patch, ← heq, List.drop_eq_nil_of_le (by rw [List.length_replicate]),
            List.append_nil]
        have hrep : (List.replicate p.2.length z).length = p.1.length := by
          rw [List.length_replicate, heq]
        have hz := h z
        rw [hfull, patch, List.length_append, ← hrep, List.drop_length_add_append,
          List.append_assoc, List.append_cancel_left_eq] at hz
        exact hz

end

end ByteMem
