import Mathlib

/-!
# UTF-8 in pieces

`Valid` says that a list of bytes is the encoding of a list of characters. What comes before a cut
of a valid list is valid only if the first byte of a character comes after it (`Valid.cut_iff`), and
a valid list that is cut into nonempty pieces has valid pieces only if every piece but the first
begins with such a byte (`valid_pieces_iff`).
-/

namespace Utf8

/-- The list is well-formed UTF-8: the encoding of some text. -/
def Valid (l : List UInt8) : Prop := l.toByteArray.IsValidUTF8

/-- Whether a list is valid can be evaluated. -/
instance (l : List UInt8) : Decidable (Valid l) :=
  inferInstanceAs (Decidable l.toByteArray.IsValidUTF8)

variable {l l' : List UInt8} {b : UInt8}

/-- A list is valid if it is the encodings of some characters, one after the other. -/
theorem valid_iff : Valid l ↔ ∃ cs : List Char, l = cs.flatMap String.utf8EncodeChar := by
  constructor
  · rintro ⟨cs, hcs⟩
    refine ⟨cs, ?_⟩
    have := congrArg (fun b => b.data.toList) hcs
    simpa [List.utf8Encode] using this
  · rintro ⟨cs, rfl⟩
    exact ⟨cs, rfl⟩

/-- The empty list is valid: it is the empty text. -/
theorem valid_nil : Valid [] := valid_iff.mpr ⟨[], rfl⟩

/-- Two valid lists in a row are valid: no character is cut between them. -/
theorem Valid.append (h : Valid l) (h' : Valid l') : Valid (l ++ l') := by
  obtain ⟨cs, rfl⟩ := valid_iff.mp h
  obtain ⟨cs', rfl⟩ := valid_iff.mp h'
  exact valid_iff.mpr ⟨cs ++ cs', List.flatMap_append.symm⟩

/-- The encoding of a character is valid by itself, as the text of this one character. -/
theorem valid_encode (c : Char) : Valid (String.utf8EncodeChar c) :=
  valid_iff.mpr ⟨[c], by rw [List.flatMap_cons, List.flatMap_nil, List.append_nil]⟩

/-- A valid list is the bytes of a string, the one it decodes to. -/
theorem fromUTF8?_of_valid (h : Valid l) :
    ∃ s, String.fromUTF8? l.toByteArray = some s ∧ s.toByteArray.data.toList = l :=
  ⟨_, dif_pos h, List.toList_data_toByteArray⟩

/-- A list that is not valid does not decode to a string. -/
theorem fromUTF8?_of_not_valid (h : ¬ Valid l) : String.fromUTF8? l.toByteArray = none := dif_neg h

/-- A valid list begins with the first byte of a character. -/
theorem Valid.isUTF8FirstByte (h : Valid (b :: l)) : b.IsUTF8FirstByte := by
  obtain ⟨cs, hcs⟩ := valid_iff.mp h
  cases cs with
  | nil => cases hcs
  | cons c cs =>
    rw [List.flatMap_cons] at hcs
    have hpos : 0 < (String.utf8EncodeChar c).length := by
      rw [String.length_utf8EncodeChar]
      exact c.utf8Size_pos
    have hb : (String.utf8EncodeChar c)[0] = b := by
      have := congrArg (fun l => l[0]?) hcs
      rw [List.getElem?_append_left hpos, List.getElem?_eq_getElem hpos] at this
      exact (Option.some.inj this).symm
    rw [← hb]
    exact UInt8.isUTF8FirstByte_getElem_utf8EncodeChar.mpr rfl

/-- **A cut before the first byte of a character** leaves two valid lists. -/
theorem Valid.cut (h : Valid (l ++ b :: l')) (hb : b.IsUTF8FirstByte) :
    Valid l ∧ Valid (b :: l') := by
  obtain ⟨cs, hcs⟩ := valid_iff.mp h
  clear h
  induction cs generalizing l with
  | nil => simp at hcs
  | cons c cs ih =>
    rw [List.flatMap_cons] at hcs
    rcases Nat.lt_or_ge l.length (String.utf8EncodeChar c).length with hlt | hge
    · -- `b` is a byte of `c`, so it is the first one
      have hbyte : (String.utf8EncodeChar c)[l.length] = b := by
        have := congrArg (fun m => m[l.length]?) hcs
        rw [List.getElem?_append_left hlt, List.getElem?_eq_getElem hlt,
          List.getElem?_append_right (Nat.le_refl _), Nat.sub_self] at this
        exact (Option.some.inj this).symm
      rw [← hbyte, UInt8.isUTF8FirstByte_getElem_utf8EncodeChar] at hb
      cases List.eq_nil_of_length_eq_zero hb
      rw [List.nil_append] at hcs
      exact ⟨valid_nil, valid_iff.mpr ⟨c :: cs, by rw [List.flatMap_cons, hcs]⟩⟩
    · obtain ⟨m, rfl⟩ : String.utf8EncodeChar c <+: l :=
        List.prefix_of_prefix_length_le ⟨_, hcs.symm⟩ ⟨_, rfl⟩ hge
      rw [List.append_assoc, List.append_cancel_left_eq] at hcs
      obtain ⟨hm, hrest⟩ := ih hcs
      exact ⟨(valid_encode c).append hm, hrest⟩

/-- No encoding of a character is the beginning of another one. -/
theorem encode_append_inj {c c' : Char}
    (h : String.utf8EncodeChar c ++ l = String.utf8EncodeChar c' ++ l') : c = c' ∧ l = l' := by
  have hdecode := congrArg (fun m => m.toByteArray.utf8DecodeChar? 0) h
  simp only [List.toByteArray_append, ByteArray.utf8DecodeChar?_utf8EncodeChar_append,
    Option.some.injEq] at hdecode
  subst hdecode
  exact ⟨rfl, List.append_cancel_left h⟩

/-- The characters of a first part are the first characters. -/
theorem chars_of_append {cs cs' : List Char}
    (h : cs.flatMap String.utf8EncodeChar ++ l = cs'.flatMap String.utf8EncodeChar) :
    ∃ cs'', cs' = cs ++ cs'' ∧ l = cs''.flatMap String.utf8EncodeChar := by
  induction cs generalizing cs' with
  | nil => exact ⟨cs', rfl, h⟩
  | cons c cs ih =>
    rw [List.flatMap_cons, List.append_assoc] at h
    cases cs' with
    | nil =>
      have hlen := congrArg List.length h
      rw [List.length_append, String.length_utf8EncodeChar, List.flatMap_nil] at hlen
      exact absurd hlen (Nat.ne_of_gt (Nat.add_pos_left c.utf8Size_pos _))
    | cons c' cs' =>
      obtain ⟨rfl, hrest⟩ := encode_append_inj (h.trans List.flatMap_cons)
      obtain ⟨cs'', rfl, hl⟩ := ih hrest
      exact ⟨cs'', rfl, hl⟩

/-- **A cut is valid on the left** only before the first byte of a character. -/
theorem Valid.cut_iff (h : Valid (l ++ b :: l')) : Valid l ↔ b.IsUTF8FirstByte := by
  refine ⟨fun hl => ?_, fun hb => (h.cut hb).1⟩
  obtain ⟨cs, rfl⟩ := valid_iff.mp hl
  obtain ⟨cs', hcs'⟩ := valid_iff.mp h
  obtain ⟨cs'', -, hrest⟩ := chars_of_append hcs'
  exact (valid_iff.mpr ⟨cs'', hrest⟩).isUTF8FirstByte

/-- **Pieces of a valid list** are valid exactly if every cut is before the first byte of a
character. -/
theorem valid_pieces_iff {ps : List (List UInt8)} (hne : ∀ p ∈ ps, p ≠ [])
    (h : Valid ps.flatten) :
    (∀ p ∈ ps, Valid p) ↔ ∀ p ∈ ps.tail, ∀ b ∈ p.head?, b.IsUTF8FirstByte := by
  constructor
  · intro hall p hp b hb
    obtain ⟨l, rfl⟩ := List.head?_eq_some_iff.mp hb
    exact (hall _ (List.mem_of_mem_tail hp)).isUTF8FirstByte
  · intro hfirst
    induction ps with
    | nil => exact fun p hp => (List.not_mem_nil hp).elim
    | cons p ps ih =>
      cases ps with
      | nil =>
        rw [List.flatten_cons, List.flatten_nil, List.append_nil] at h
        rintro q hq
        cases List.mem_singleton.mp hq
        exact h
      | cons q qs =>
        obtain ⟨b, l, rfl⟩ := List.exists_cons_of_ne_nil (hne q (by simp))
        rw [List.flatten_cons, List.flatten_cons, List.cons_append] at h
        obtain ⟨hp, hrest⟩ := h.cut (hfirst (b :: l) (by simp) b rfl)
        refine List.forall_mem_cons.mpr ⟨hp, ih (fun r hr => hne r (List.mem_cons_of_mem _ hr))
          hrest fun r hr => hfirst r ?_⟩
        exact List.mem_of_mem_tail hr

/-- Pieces that get no longer are together the same only if each of them is. -/
theorem flatMap_eq_flatten_iff {α : Type} {f : List α → List α} {ps : List (List α)}
    (hle : ∀ p ∈ ps, (f p).length ≤ p.length) :
    ps.flatMap f = ps.flatten ↔ ∀ p ∈ ps, f p = p := by
  constructor
  · intro h
    induction ps with
    | nil => exact fun p hp => (List.not_mem_nil hp).elim
    | cons p ps ih =>
      obtain ⟨hp, hps⟩ := List.forall_mem_cons.mp hle
      have hsum : (ps.flatMap f).length ≤ ps.flatten.length := by
        rw [List.length_flatMap, List.length_flatten]
        exact List.sum_le_sum hps
      rw [List.flatMap_cons, List.flatten_cons] at h
      have hlen := congrArg List.length h
      rw [List.length_append, List.length_append] at hlen
      obtain ⟨hfirst, hrest⟩ := List.append_inj h (by omega)
      exact List.forall_mem_cons.mpr ⟨hfirst, ih hps hrest⟩
  · intro h
    rw [List.flatMap_def, List.map_congr_left h, List.map_id']

end Utf8
