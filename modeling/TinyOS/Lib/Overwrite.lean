import Mathlib

/-!
# Writing into a list

A list as the contents of something that is written at any place and grows when it is written behind
its end: what lies between the old end and the place is filled up. `ext_getD` reduces an equation
between such lists to their elements.
-/

namespace Overwrite

variable {α : Type*}

/-- The list with `xs` written at `offset`; a gap behind its old end is filled with `zero`. -/
def overwrite (zero : α) (l : List α) (offset : Nat) (xs : List α) : List α :=
  l.take offset ++ List.replicate (offset - l.length) zero ++ xs ++ l.drop (offset + xs.length)

variable {zero : α} {l l' xs : List α} {offset : Nat}

/-- Writing into a list makes it as long as the end of what is written, if it was shorter. -/
@[simp] theorem length_overwrite :
    (overwrite zero l offset xs).length = max l.length (offset + xs.length) := by
  simp only [overwrite, List.length_append, List.length_take, List.length_replicate,
    List.length_drop]
  omega

/-- Lists are equal if they are equally long and have the same elements. -/
theorem ext_getD (zero : α) (hlen : l.length = l'.length)
    (h : ∀ k < l.length, l.getD k zero = l'.getD k zero) : l = l' := by
  refine List.ext_getElem hlen fun k hk hk' => ?_
  calc l[k] = l.getD k zero := (List.getD_eq_getElem l zero hk).symm
    _ = l'.getD k zero := h k hk
    _ = l'[k] := List.getD_eq_getElem l' zero hk'

/-- The elements after a write: those of `xs` where it was written, `zero` behind the old end. -/
theorem getD_overwrite (k : Nat) : (overwrite zero l offset xs).getD k zero =
    if offset ≤ k ∧ k < offset + xs.length then xs.getD (k - offset) zero
    else l.getD k zero := by
  have hpre : (l.take offset ++ List.replicate (offset - l.length) zero).length = offset := by
    simp only [List.length_append, List.length_take, List.length_replicate]
    omega
  rw [overwrite, List.append_assoc]
  rcases Nat.lt_or_ge k offset with hk | hk
  · rw [List.getD_append _ _ _ _ (by rwa [hpre]), if_neg (by omega)]
    rcases Nat.lt_or_ge k l.length with hl | hl
    · rw [List.getD_append _ _ _ _ (by rw [List.length_take]; omega), List.getD_eq_getElem?_getD,
        List.getElem?_take_of_lt hk, List.getD_eq_getElem?_getD]
    · rw [List.getD_append_right _ _ _ _ (by rw [List.length_take]; omega),
        List.getD_replicate zero (by rw [List.length_take]; omega), List.getD_eq_default _ _ hl]
  · rw [List.getD_append_right _ _ _ _ (by rwa [hpre]), hpre]
    rcases Nat.lt_or_ge k (offset + xs.length) with hx | hx
    · rw [List.getD_append _ _ _ _ (by omega), if_pos ⟨hk, hx⟩]
    · rw [List.getD_append_right _ _ _ _ (by omega), if_neg (by omega),
        List.getD_eq_getElem?_getD, List.getElem?_drop, List.getD_eq_getElem?_getD,
        show offset + xs.length + (k - offset - xs.length) = k by omega]

end Overwrite
