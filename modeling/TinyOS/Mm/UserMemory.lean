import TinyOS.Mm.PageTable

/-!
# Pointers from user space

`sys_read` and `sys_write` pass the pointer and the length of the user straight to
`translated_byte_buffer`, and `sys_exec` passes a pointer to `translated_str` (`mm/page_table.rs`).
This module is about any such arguments and any page table.

* The walk over a buffer reduces addresses to 39 bits, but its loop compares them with a 64-bit end.
  Beyond `2 ^ 39` it never reaches the end: it stops on an unmapped page or not at all
  (`translatedByteBuffer_terminates_iff`).
* The walk does not look at the flags of the pages it returns (`translatedByteBuffer_user_iff`).
* The walk over a string reads the first byte of a frame, not the one at the address
  (`translatedStr_eq_iff`).
-/

namespace TinyOS

open Paging

variable {translate : PageTable → VirtPageNum → Option PageTableEntry} {pageTable : PageTable}
  {start stop fuel token ptr len : Nat}

/-! ## The loop with any end -/

/-- A loop that ends with some fuel ends in the same way with any other that is enough. -/
theorem bufferLoop_unique {fuel' : Nat} {v : List Slice} {r r' : Except Panic (List Slice)}
    (h : bufferLoop translate pageTable stop fuel start v = some r)
    (h' : bufferLoop translate pageTable stop fuel' start v = some r') : r = r' := by
  induction fuel generalizing fuel' start v with
  | zero => cases h
  | succ fuel ih =>
    cases fuel' with
    | zero => cases h'
    | succ fuel' =>
      rw [bufferLoop] at h h'
      split at h
      · rename_i hlt
        rw [if_pos hlt] at h'
        cases hstep : bufferStep translate pageTable start stop with
        | error e =>
          rw [hstep] at h h'
          cases h
          cases h'
          rfl
        | ok p =>
          rw [hstep] at h h'
          exact ih h h'
      · rename_i hge
        rw [if_neg hge] at h'
        cases h
        cases h'
        rfl

/-- An iteration depends on the lower 39 bits of the start only. -/
theorem bufferStep_mod : bufferStep translate pageTable (start % 2 ^ 39) stop =
    bufferStep translate pageTable start stop := by
  have hva : VirtAddr.ofUsize (start % 2 ^ 39) = VirtAddr.ofUsize start := by
    rw [VirtAddr.ofUsize, VirtAddr.ofUsize, and_mask, and_mask, vaWidthSv39, Nat.mod_mod]
  rw [bufferStep, bufferStep, hva]

/-- An iteration whose slice is in its page moves on. -/
theorem bufferStep_moves (start stop : Nat) {a z : Nat} (ha : start % 2 ^ 39 = a)
    (hz : min (pageEnd 4096 a) (stop % 2 ^ 39) = z) (hmap : translate pageTable ⟨a / 4096⟩ ≠ none)
    (hslice : z % 4096 = 0 ∨ a % 4096 ≤ z % 4096) :
    ∃ slice, bufferStep translate pageTable start stop = .ok (slice, z) := by
  obtain ⟨pte, hpte⟩ := Option.ne_none_iff_exists'.mp hmap
  rw [bufferStep_of_mapped ha hz hpte]
  by_cases h0 : z % 4096 = 0
  · rw [if_pos h0]
    exact ⟨_, rfl⟩
  · rw [if_neg h0, if_pos (hslice.resolve_left h0)]
    exact ⟨_, rfl⟩

/-- The loop stops at the first unmapped page, if it comes to it. -/
theorem bufferLoop_of_unmapped {p : Nat} (hlt : start < stop) (hle : start ≤ stop % 2 ^ 39)
    (hp : start / 4096 ≤ p) (hp' : p * 4096 < stop) (hend : p ≤ stop % 2 ^ 39 / 4096)
    (hnone : translate pageTable ⟨p⟩ = none) :
    ∃ fuel, ∀ v, bufferLoop translate pageTable stop fuel start v =
      some (.error (.expect "bad user ptr")) := by
  have hmod : stop % 2 ^ 39 < 2 ^ 39 := Nat.mod_lt _ (by decide)
  obtain ⟨d, hd⟩ := Nat.exists_eq_add_of_le hp
  -- the pages before `p` are at most `d`
  induction d generalizing start with
  | zero =>
    refine ⟨1, fun v => ?_⟩
    rw [bufferLoop, if_pos hlt, bufferStep_of_unmapped]
    rw [Nat.mod_eq_of_lt (by omega), ← hnone, hd, Nat.add_zero]
  | succ d ih =>
    by_cases hmap : translate pageTable ⟨start / 4096⟩ = none
    · refine ⟨1, fun v => ?_⟩
      rw [bufferLoop, if_pos hlt, bufferStep_of_unmapped]
      rw [Nat.mod_eq_of_lt (by omega), hmap]
    · have hpage : pageEnd 4096 start = (start / 4096 + 1) * 4096 := rfl
      obtain ⟨slice, hstep⟩ := bufferStep_moves start stop (Nat.mod_eq_of_lt (by omega))
        (min_eq_left (by omega) : min (pageEnd 4096 start) (stop % 2 ^ 39) = _) hmap
        (.inl (by omega))
      obtain ⟨fuel, hfuel⟩ := ih (by omega : pageEnd 4096 start < stop) (by omega) (by omega)
        (by omega)
      refine ⟨fuel + 1, fun v => ?_⟩
      rw [bufferLoop, if_pos hlt, hstep]
      exact hfuel _

/-- **Beyond `2 ^ 39` the loop does not end** if the pages up to the lower 39 bits of its end are
mapped. -/
theorem bufferLoop_of_mapped (hstop : 2 ^ 39 ≤ stop) (hle : start ≤ stop % 2 ^ 39)
    (hmap : ∀ p, start / 4096 ≤ p → p ≤ stop % 2 ^ 39 / 4096 →
      translate pageTable ⟨p⟩ ≠ none) (fuel : Nat) (v : List Slice) :
    bufferLoop translate pageTable stop fuel start v = none := by
  have hmod : stop % 2 ^ 39 < 2 ^ 39 := Nat.mod_lt _ (by decide)
  -- `start` never gets beyond the lower bits of `stop`
  induction fuel generalizing start v with
  | zero => rfl
  | succ fuel ih =>
    have hpage : pageEnd 4096 start = (start / 4096 + 1) * 4096 := rfl
    obtain ⟨slice, hstep⟩ := bufferStep_moves start stop (Nat.mod_eq_of_lt (by omega)) rfl
      (hmap (start / 4096) (Nat.le_refl _) (Nat.div_le_div_right hle)) (by omega)
    rw [bufferLoop, if_pos (by omega), hstep]
    exact ih (min_le_right _ _) (fun p hp => hmap p (by omega)) _

/-- An iteration depends on the lower 39 bits of the start only, and so does a loop that begins. -/
theorem bufferLoop_mod (hlt : start < stop) (hlt' : start % 2 ^ 39 < stop) (v : List Slice) :
    bufferLoop translate pageTable stop fuel start v =
      bufferLoop translate pageTable stop fuel (start % 2 ^ 39) v := by
  cases fuel with
  | zero => rfl
  | succ fuel => rw [bufferLoop, bufferLoop, if_pos hlt, if_pos hlt', bufferStep_mod]

/-! ## When the walk ends -/

/-- The walk ends, on an unmapped page or with slices that are together as long as the buffer. -/
def EndsWell (translate : PageTable → VirtPageNum → Option PageTableEntry) (token ptr len : Nat) :
    Prop :=
  ∃ fuel r, translatedByteBuffer translate fuel token ptr len = some r ∧
    (r = .error (.expect "bad user ptr") ∨ ∃ v, r = .ok v ∧ (v.map Slice.len).sum = len)

/-- The walk from `a` to the end `e`, both of 39 bits, comes to an unmapped page. If the end is
before the start, the first slice goes from the one to the other in the page of the start. -/
def MeetsUnmapped (translate : PageTable → VirtPageNum → Option PageTableEntry)
    (pageTable : PageTable) (a e : Nat) : Prop :=
  translate pageTable ⟨a / 4096⟩ = none ∨
  (a ≤ e ∧ ∃ p, a / 4096 ≤ p ∧ p ≤ e / 4096 ∧ translate pageTable ⟨p⟩ = none) ∨
  (e < a ∧ (e % 4096 = 0 ∨ a % 4096 ≤ e % 4096) ∧ translate pageTable ⟨e / 4096⟩ = none)

/-- The slices behind the pieces of a range have as many bytes as the pieces. -/
theorem sum_len_of_backs {l : List (Nat × Nat)} {w : List Slice}
    (h : List.Forall₂ (Backs translate pageTable) l w) :
    (w.map Slice.len).sum = (l.map fun c => c.2 - c.1).sum := by
  induction h with
  | nil => rfl
  | cons hb _ ih =>
    obtain ⟨pte, -, rfl⟩ := hb
    rw [List.map_cons, List.map_cons, List.sum_cons, List.sum_cons, ih]

/-- A buffer that ends below `2 ^ 39` is walked to its end, or up to a page that is not mapped. -/
theorem endsWell_of_lt (h : ptr + len < 2 ^ 39) : EndsWell translate token ptr len := by
  have hstop : (ptr + len) % 2 ^ 64 = ptr + len := Nat.mod_eq_of_lt (by omega)
  have hmod : (ptr + len) % 2 ^ 39 = ptr + len := Nat.mod_eq_of_lt h
  by_cases hmap : ∀ c ∈ cut 4096 ptr (ptr + len),
      ∃ pte, translate (.fromToken token) ⟨c.1 / 4096⟩ = some pte
  · obtain ⟨w, hw, hloop⟩ := bufferLoop_eq h ptr hmap
    refine ⟨(cut 4096 ptr (ptr + len)).length + 1, .ok w, ?_, .inr ⟨w, rfl, ?_⟩⟩
    · rw [translatedByteBuffer, hstop]
      exact hloop _ [] (Nat.lt_succ_self _)
    · rw [sum_len_of_backs hw, sum_cut (by decide), Nat.add_sub_cancel_left]
  · push Not at hmap
    obtain ⟨c, hc, hnone⟩ := hmap
    obtain ⟨h1, h2, h3, -⟩ := mem_cut hc
    have hpage : translate (.fromToken token) ⟨c.1 / 4096⟩ = none := by
      cases hpte : translate (.fromToken token) ⟨c.1 / 4096⟩ with
      | none => rfl
      | some pte => exact absurd hpte (hnone pte)
    obtain ⟨fuel, hfuel⟩ := bufferLoop_of_unmapped (by omega : ptr < ptr + len) (by omega)
      (Nat.div_le_div_right h1) (by omega) (by omega) hpage
    refine ⟨fuel, _, ?_, .inl rfl⟩
    rw [translatedByteBuffer, hstop]
    exact hfuel []

/-- The first iteration, if the end is before the start, goes to the end at once. -/
theorem bufferStep_back {a e : Nat} (ha : start % 2 ^ 39 = a) (he : stop % 2 ^ 39 = e)
    (hlt : e < a) (hmap : translate pageTable ⟨a / 4096⟩ ≠ none) :
    (∃ slice, bufferStep translate pageTable start stop = .ok (slice, e)) ∧
      (e % 4096 = 0 ∨ a % 4096 ≤ e % 4096) ∨
    bufferStep translate pageTable start stop = .error (.sliceIndex (a % 4096) (e % 4096) 4096) ∧
      ¬ (e % 4096 = 0 ∨ a % 4096 ≤ e % 4096) := by
  have hpage : pageEnd 4096 a = (a / 4096 + 1) * 4096 := rfl
  have hz : min (pageEnd 4096 a) (stop % 2 ^ 39) = e := by omega
  by_cases hslice : e % 4096 = 0 ∨ a % 4096 ≤ e % 4096
  · exact .inl ⟨bufferStep_moves start stop ha hz hmap hslice, hslice⟩
  · obtain ⟨pte, hpte⟩ := Option.ne_none_iff_exists'.mp hmap
    refine .inr ⟨?_, hslice⟩
    rw [bufferStep_of_mapped ha hz hpte, if_neg fun h => hslice (.inl h),
      if_neg fun h => hslice (.inr h)]

/-- The next start of the walk is not behind the end, truncated to the 39 bits of an address. -/
theorem bufferStep_next_le {slice : Slice} {next : Nat}
    (h : bufferStep translate pageTable start stop = .ok (slice, next)) :
    next ≤ stop % 2 ^ 39 := by
  by_cases hmap : translate pageTable ⟨start % 2 ^ 39 / 4096⟩ = none
  · rw [bufferStep_of_unmapped hmap] at h
    cases h
  · obtain ⟨pte, hpte⟩ := Option.ne_none_iff_exists'.mp hmap
    rw [bufferStep_of_mapped rfl rfl hpte] at h
    split at h
    · cases h
      exact min_le_right _ _
    · split at h
      · cases h
        exact min_le_right _ _
      · cases h

/-- Beyond `2 ^ 39` the loop does not return: the address it goes on with never gets to the end. -/
theorem bufferLoop_ne_ok (hstop : 2 ^ 39 ≤ stop) (hlt : start < stop) (v w : List Slice) :
    bufferLoop translate pageTable stop fuel start v ≠ some (.ok w) := by
  induction fuel generalizing start v with
  | zero =>
    intro h
    cases h
  | succ fuel ih =>
    rw [bufferLoop, if_pos hlt]
    cases hstep : bufferStep translate pageTable start stop with
    | error e =>
      intro h
      cases h
    | ok p =>
      obtain ⟨slice, next⟩ := p
      have hnext := bufferStep_next_le hstep
      have hmod : stop % 2 ^ 39 < 2 ^ 39 := Nat.mod_lt _ (by decide)
      exact ih (by omega) _

/-- Beyond `2 ^ 39`, from a start that is not behind the lower bits of its end, the loop fails on an
unmapped page if and only if there is one up to that end. -/
theorem bufferLoop_panics_iff_of_le {a e : Nat} (hstop : 2 ^ 39 ≤ stop)
    (he : stop % 2 ^ 39 = e) (hae : a ≤ e) (v : List Slice) :
    (∃ fuel, bufferLoop translate pageTable stop fuel a v =
      some (.error (.expect "bad user ptr"))) ↔
      ∃ p, a / 4096 ≤ p ∧ p ≤ e / 4096 ∧ translate pageTable ⟨p⟩ = none := by
  have he39 : e < 2 ^ 39 := he ▸ Nat.mod_lt _ (by decide)
  constructor
  · rintro ⟨fuel, hfuel⟩
    by_contra hmap
    rw [bufferLoop_of_mapped hstop (he.symm ▸ hae) fun p h1 h2 hnone => ?_] at hfuel
    · cases hfuel
    · exact hmap ⟨p, h1, he ▸ h2, hnone⟩
  · rintro ⟨p, h1, h2, hnone⟩
    obtain ⟨fuel, hfuel⟩ := bufferLoop_of_unmapped (by omega : a < stop) (he.symm ▸ hae) h1
      (by omega) (he.symm ▸ h2) hnone
    exact ⟨fuel, hfuel v⟩

/-- From a start behind the lower bits of its end the loop goes to that end, if it can. -/
theorem bufferLoop_panics_iff_of_lt {a e : Nat} (hstop : 2 ^ 39 ≤ stop) (ha : a < 2 ^ 39)
    (he : stop % 2 ^ 39 = e) (hea : e < a) (hmap : translate pageTable ⟨a / 4096⟩ ≠ none)
    (v : List Slice) :
    (∃ fuel, bufferLoop translate pageTable stop fuel a v =
      some (.error (.expect "bad user ptr"))) ↔
      (e % 4096 = 0 ∨ a % 4096 ≤ e % 4096) ∧ translate pageTable ⟨e / 4096⟩ = none := by
  have hlt : a < stop := Nat.lt_of_lt_of_le ha hstop
  rcases bufferStep_back (Nat.mod_eq_of_lt ha) he hea hmap with
    ⟨⟨slice, hstep⟩, hslice⟩ | ⟨hstep, hslice⟩
  · have hloop (fuel : Nat) : bufferLoop translate pageTable stop (fuel + 1) a v =
        bufferLoop translate pageTable stop fuel e (v ++ [slice]) := by
      rw [bufferLoop, if_pos hlt, hstep]
    have hend : (∃ fuel, bufferLoop translate pageTable stop fuel e (v ++ [slice]) =
        some (.error (.expect "bad user ptr"))) ↔ _ :=
      bufferLoop_panics_iff_of_le hstop he (Nat.le_refl e) (v ++ [slice])
    constructor
    · rintro ⟨fuel, hfuel⟩
      cases fuel with
      | zero => cases hfuel
      | succ fuel =>
        obtain ⟨p, h1, h2, hnone⟩ := hend.mp ⟨fuel, (hloop fuel).symm.trans hfuel⟩
        rw [Nat.le_antisymm h2 h1] at hnone
        exact ⟨hslice, hnone⟩
    · rintro ⟨-, hnone⟩
      obtain ⟨fuel, hfuel⟩ := hend.mpr ⟨e / 4096, Nat.le_refl _, Nat.le_refl _, hnone⟩
      exact ⟨fuel + 1, (hloop fuel).trans hfuel⟩
  · constructor
    · rintro ⟨fuel, hfuel⟩
      cases fuel with
      | zero => cases hfuel
      | succ fuel =>
        rw [bufferLoop, if_pos hlt, hstep] at hfuel
        cases hfuel
    · rintro ⟨h, -⟩
      exact absurd h hslice

/-- Beyond `2 ^ 39` the loop fails on an unmapped page if and only if it comes to one. -/
theorem bufferLoop_panics_iff {a e : Nat} (hstop : 2 ^ 39 ≤ stop) (ha : a < 2 ^ 39)
    (he : stop % 2 ^ 39 = e) (v : List Slice) :
    (∃ fuel, bufferLoop translate pageTable stop fuel a v =
      some (.error (.expect "bad user ptr"))) ↔ MeetsUnmapped translate pageTable a e := by
  by_cases hmap : translate pageTable ⟨a / 4096⟩ = none
  · refine iff_of_true ⟨1, ?_⟩ (.inl hmap)
    rw [bufferLoop, if_pos (Nat.lt_of_lt_of_le ha hstop),
      bufferStep_of_unmapped (by rwa [Nat.mod_eq_of_lt ha])]
  rw [MeetsUnmapped, or_iff_right hmap]
  rcases Nat.lt_or_ge e a with hea | hae
  · have hback : ¬ (a ≤ e ∧ ∃ p, a / 4096 ≤ p ∧ p ≤ e / 4096 ∧
        translate pageTable ⟨p⟩ = none) := fun h => Nat.not_lt_of_le h.1 hea
    rw [bufferLoop_panics_iff_of_lt hstop ha he hea hmap, or_iff_right hback, and_iff_right hea]
  · have hforth : ¬ (e < a ∧ (e % 4096 = 0 ∨ a % 4096 ≤ e % 4096) ∧
        translate pageTable ⟨e / 4096⟩ = none) := fun h => Nat.not_lt_of_le hae h.1
    rw [bufferLoop_panics_iff_of_le hstop he hae, or_iff_left hforth, and_iff_right hae]

/-- **When the walk ends.** For any pointer and length whose sum is a 64-bit number the walk over
the buffer ends, with the error for an unmapped page or with slices that are together as long as the
buffer, if and only if the buffer is empty, ends below `2 ^ 39`, or the walk over the lower 39 bits
comes to an unmapped page. -/
theorem translatedByteBuffer_terminates_iff (h : ptr + len < 2 ^ 64) :
    EndsWell translate token ptr len ↔
      len = 0 ∨ ptr + len < 2 ^ 39 ∨
        MeetsUnmapped translate (.fromToken token) (ptr % 2 ^ 39) ((ptr + len) % 2 ^ 39) := by
  have hstop : (ptr + len) % 2 ^ 64 = ptr + len := Nat.mod_eq_of_lt h
  by_cases hlen : len = 0
  · refine iff_of_true ⟨1, .ok [], ?_, .inr ⟨[], rfl, hlen.symm⟩⟩ (.inl hlen)
    rw [translatedByteBuffer, hstop, bufferLoop, if_neg (by omega)]
  rcases Nat.lt_or_ge (ptr + len) (2 ^ 39) with hlt | hge
  · exact iff_of_true (endsWell_of_lt hlt) (.inr (.inl hlt))
  -- the loop from the lower bits of `ptr`
  have ha : ptr % 2 ^ 39 < 2 ^ 39 := Nat.mod_lt _ (by decide)
  have hbegin (fuel : Nat) : translatedByteBuffer translate fuel token ptr len =
      bufferLoop translate (.fromToken token) (ptr + len) fuel (ptr % 2 ^ 39) [] := by
    rw [translatedByteBuffer, hstop, bufferLoop_mod (by omega) (by omega)]
  rw [← bufferLoop_panics_iff hge ha rfl []]
  constructor
  · rintro ⟨fuel, r, hr, rfl | ⟨v, rfl, -⟩⟩
    · exact .inr (.inr ⟨fuel, (hbegin fuel).symm.trans hr⟩)
    · exact absurd ((hbegin fuel).symm.trans hr) (bufferLoop_ne_ok hge (by omega) _ _)
  · rintro (h0 | hlt | ⟨fuel, hfuel⟩)
    · exact absurd h0 hlen
    · exact absurd hge (Nat.not_le_of_lt hlt)
    · exact ⟨fuel, _, (hbegin fuel).trans hfuel, .inl rfl⟩

/-- With two pages mapped: a walk beyond `2 ^ 39` goes through both and stops on the third page, and
one over both pages from their addresses returns. -/
theorem translatedByteBuffer_terminates_third_page :
    let translate : PageTable → VirtPageNum → Option PageTableEntry := fun _ vpn =>
      if vpn.val < 2 then some ⟨7 <<< 10 ||| 1⟩ else none
    EndsWell translate 0 (2 ^ 63 + 100) 10000 ∧ EndsWell translate 0 100 8000 := by
  intro translate
  have hthird : MeetsUnmapped translate (.fromToken 0) ((2 ^ 63 + 100) % 2 ^ 39)
      ((2 ^ 63 + 100 + 10000) % 2 ^ 39) :=
    .inr (.inl ⟨by decide, 2, by decide, by decide, rfl⟩)
  exact ⟨(translatedByteBuffer_terminates_iff (by decide)).mpr (.inr (.inr hthird)),
    (translatedByteBuffer_terminates_iff (by decide)).mpr (.inr (.inl (by decide)))⟩

/-- Ten bytes at `2 ^ 63`, with page 0 mapped: the walk pushes empty slices for ever. -/
theorem translatedByteBuffer_hangs :
    let translate : PageTable → VirtPageNum → Option PageTableEntry := fun _ vpn =>
      if vpn.val = 0 then some ⟨7 <<< 10 ||| 1⟩ else none
    (∀ fuel, translatedByteBuffer translate fuel 0 (2 ^ 63) 10 = none) ∧
      ¬ EndsWell translate 0 (2 ^ 63) 10 := by
  intro translate
  have hmap : ∀ p, 0 / 4096 ≤ p → p ≤ (2 ^ 63 + 10) % 2 ^ 39 / 4096 →
      translate (.fromToken 0) ⟨p⟩ ≠ none := by
    intro p _ hp
    rw [show p = 0 from Nat.le_zero.mp hp]
    exact nofun
  have hnone (fuel : Nat) : translatedByteBuffer translate fuel 0 (2 ^ 63) 10 = none := by
    rw [translatedByteBuffer, Nat.mod_eq_of_lt (by decide), bufferLoop_mod (by decide) (by decide)]
    exact bufferLoop_of_mapped (by decide) (by decide) hmap fuel []
  refine ⟨hnone, ?_⟩
  rintro ⟨fuel, r, hr, -⟩
  rw [hnone] at hr
  cases hr

/-! ## Pages without `U` -/

/-- The slice is a nonempty part of the frame that page `p` is mapped to, with the flag `U`. -/
def InUserFrameOf (translate : PageTable → VirtPageNum → Option PageTableEntry)
    (pageTable : PageTable) (p : Nat) (s : Slice) : Prop :=
  InFrameOf translate pageTable p s ∧
    ∃ pte, translate pageTable ⟨p⟩ = some pte ∧ pte.IsUser

/-- **A walk that returns** has cut the buffer at the page boundaries, and all its pages are
mapped. -/
theorem backs_of_translatedByteBuffer {v : List Slice}
    (h : translatedByteBuffer translate fuel token ptr len = some (.ok v)) :
    List.Forall₂ (Backs translate (.fromToken token)) (cut 4096 ptr ((ptr + len) % 2 ^ 64)) v := by
  rw [translatedByteBuffer] at h
  generalize (ptr + len) % 2 ^ 64 = stop at h ⊢
  rcases Nat.lt_or_ge ptr stop with hlt | hge
  · have hstop : stop < 2 ^ 39 := by
      by_contra hge
      exact bufferLoop_ne_ok (Nat.le_of_not_lt hge) hlt _ _ h
    have hmod : stop % 2 ^ 39 = stop := Nat.mod_eq_of_lt hstop
    obtain ⟨w, hw, hloop⟩ := bufferLoop_eq hstop ptr fun c hc => by
      obtain ⟨h1, h2, h3, -⟩ := mem_cut hc
      refine Option.ne_none_iff_exists'.mp fun hnone => ?_
      obtain ⟨fuel', hfuel'⟩ := bufferLoop_of_unmapped hlt (by omega) (Nat.div_le_div_right h1)
        (by omega) (by omega) hnone
      cases bufferLoop_unique h (hfuel' [])
    cases bufferLoop_unique h (hloop _ [] (Nat.lt_succ_self _))
    exact hw
  · cases fuel with
    | zero => cases h
    | succ fuel =>
      rw [bufferLoop, if_neg (Nat.not_lt_of_le hge)] at h
      cases h
      rw [cut, if_neg fun hlt => Nat.not_lt_of_le hge hlt.1]
      exact .nil

/-- The slices of a walk that returns are not empty. -/
theorem len_pos_of_translatedByteBuffer {v : List Slice}
    (h : translatedByteBuffer translate fuel token ptr len = some (.ok v)) :
    ∀ s ∈ v, 0 < s.len := by
  have hcut : ∀ c ∈ cut 4096 ptr ((ptr + len) % 2 ^ 64), c.1 < c.2 := fun c hc => (mem_cut hc).2.1
  have hboth := (List.forall₂_and_left _ _).mpr ⟨hcut, backs_of_translatedByteBuffer h⟩
  have hpos : List.Forall₂ (fun s _ => 0 < s.len ∧ True) v _ := hboth.flip.imp fun s c hc => by
    obtain ⟨hlt, pte, -, rfl⟩ := hc
    exact ⟨Nat.sub_pos_of_lt hlt, trivial⟩
  exact ((List.forall₂_and_left _ _).mp hpos).1

/-- Together they are not longer than the addresses there are. -/
theorem sum_len_of_translatedByteBuffer {v : List Slice}
    (h : translatedByteBuffer translate fuel token ptr len = some (.ok v)) :
    (v.map Slice.len).sum < 2 ^ 39 := by
  rw [sum_len_of_backs (backs_of_translatedByteBuffer h), sum_cut (by decide)]
  by_contra hge
  rw [translatedByteBuffer] at h
  exact bufferLoop_ne_ok (by omega) (by omega) _ _ h

/-- **When a buffer is the user's.** Where the walk over a buffer returns, its slices are parts of
frames mapped with the flag `U`, page by page, if and only if every page the buffer meets has it. -/
theorem translatedByteBuffer_user_iff {v : List Slice}
    (h : translatedByteBuffer translate fuel token ptr len = some (.ok v)) :
    List.Forall₂ (InUserFrameOf translate (.fromToken token))
      (pages 4096 ptr ((ptr + len) % 2 ^ 64)) v ↔
    ∀ p ∈ pages 4096 ptr ((ptr + len) % 2 ^ 64),
      ∃ pte, translate (.fromToken token) ⟨p⟩ = some pte ∧ pte.IsUser := by
  have hbacks := backs_of_translatedByteBuffer h
  generalize (ptr + len) % 2 ^ 64 = stop at hbacks ⊢
  rw [← map_page_cut (by decide) ptr stop, List.forall₂_map_left_iff, List.forall_mem_map]
  have hcut : ∀ c ∈ cut 4096 ptr stop, c ∈ cut 4096 ptr stop := fun c hc => hc
  have hboth := (List.forall₂_and_left _ _).mpr ⟨hcut, hbacks⟩
  constructor
  · intro hv
    exact ((List.forall₂_and_left _ _).mp (hv.imp fun c s h => ⟨h.2, h.1⟩)).1
  · intro huser
    have hall := (List.forall₂_and_left _ _).mpr ⟨huser, hboth⟩
    exact hall.imp fun c s h => ⟨h.2.2.inFrameOf h.2.1, h.1⟩

/-- Eight bytes of a user page, which the walk returns as one slice. -/
theorem translatedByteBuffer_user_page :
    let translate : PageTable → VirtPageNum → Option PageTableEntry := fun _ vpn =>
      if vpn.val = 1 then some (.new ⟨7⟩ (.union .v (.union .r .u))) else none
    List.Forall₂ (InUserFrameOf translate (.fromToken 0)) [1] [⟨7 * 4096 + 4, 8⟩] := by
  intro translate
  have h : translatedByteBuffer translate 2 0 4100 8 = some (.ok [⟨7 * 4096 + 4, 8⟩]) := by decide
  refine (translatedByteBuffer_user_iff h).mpr fun p hp => ?_
  cases List.mem_singleton.mp hp
  exact ⟨_, rfl, by decide⟩

/-- The page of the trap context, mapped at its 39 bits for reading and writing without `U`: the
walk returns a slice of it. -/
theorem translatedByteBuffer_trapContext :
    let pte : PageTableEntry := .new ⟨5⟩ (.union .v (.union .r .w))
    let translate : PageTable → VirtPageNum → Option PageTableEntry := fun _ vpn =>
      if vpn.val = 2 ^ 27 - 2 then some pte else none
    translatedByteBuffer translate 2 0 (2 ^ 39 - 8192) 8 = some (.ok [⟨5 * 4096, 8⟩]) ∧
      ¬ pte.IsUser ∧ ¬ InUserFrameOf translate (.fromToken 0) (2 ^ 27 - 2) ⟨5 * 4096, 8⟩ := by
  intro pte translate
  have hpte : ¬ pte.IsUser := by decide
  refine ⟨by decide, hpte, ?_⟩
  rintro ⟨-, pte', htranslate, huser⟩
  cases htranslate
  exact hpte huser

/-! ## Strings -/

/-- The panic of `Option::unwrap`, with the text it reports where a page is not mapped. -/
def unwrapNone : Panic := .expect "called `Option::unwrap()` on a `None` value"

/-- `*ppn.get_mut::<u8>()`: the first byte of the frame. The pointer must not be null. -/
def PhysPageNum.getMut (mem : Nat → UInt8) (ppn : PhysPageNum) : Except Panic UInt8 :=
  let pa := PhysAddr.ofPpn ppn
  if pa.val = 0 then .error unwrapNone else .ok (mem pa.val)

/-- The byte `translated_str` reads for the address `va`: the first one of the frame, whatever
the offset is. -/
def strByte (translate : PageTable → VirtPageNum → Option PageTableEntry) (pageTable : PageTable)
    (mem : Nat → UInt8) (va : Nat) : Except Panic UInt8 :=
  match translate pageTable (VirtAddr.ofUsize va).floor with
  | none => .error unwrapNone
  | some pte => pte.ppn.getMut mem

/-- `ch as char`: the character with this number, in the first 256 of Unicode. -/
def asChar (ch : UInt8) : Char := .ofNat ch.toNat

/-- The loop of `translated_str`. `none` if it has not ended after `fuel` iterations. -/
def strLoop (translate : PageTable → VirtPageNum → Option PageTableEntry) (pageTable : PageTable)
    (mem : Nat → UInt8) : Nat → Nat → List Char → Option (Except Panic (List Char))
  | 0, _, _ => none
  | fuel + 1, va, s =>
    match strByte translate pageTable mem va with
    | .error e => some (.error e)
    | .ok ch =>
      if ch = 0 then some (.ok s)
      else strLoop translate pageTable mem fuel ((va + 1) % 2 ^ 64) (s ++ [asChar ch])

/-- `translated_str`: the characters up to the first zero. `none` if the loop has not ended
after `fuel` iterations. -/
def translatedStr (translate : PageTable → VirtPageNum → Option PageTableEntry)
    (mem : Nat → UInt8) (fuel token ptr : Nat) : Option (Except Panic (List Char)) :=
  strLoop translate (.fromToken token) mem fuel ptr []

/-- The byte `translated_str` reads for an address, where it does not panic. -/
def strRead (translate : PageTable → VirtPageNum → Option PageTableEntry) (pageTable : PageTable)
    (mem : Nat → UInt8) (va : Nat) : Option UInt8 := (strByte translate pageTable mem va).toOption

/-- The bytes at `va` are `str` and a terminating zero, as `read` sees them. -/
def StringAt (read : Nat → Option UInt8) : Nat → List UInt8 → Prop
  | va, [] => read va = some 0
  | va, b :: str => read va = some b ∧ b ≠ 0 ∧ StringAt read (va + 1) str

/-- Whether a string is at an address can be evaluated, byte by byte. -/
instance StringAt.decidable (read : Nat → Option UInt8) :
    ∀ va str, Decidable (StringAt read va str)
  | va, [] => inferInstanceAs (Decidable (read va = some 0))
  | va, b :: str =>
    have := StringAt.decidable read (va + 1) str
    inferInstanceAs (Decidable (read va = some b ∧ b ≠ 0 ∧ StringAt read (va + 1) str))

/-- Two readers see the same string if they agree on its bytes and its terminator. -/
theorem StringAt.iff_agree {read read' : Nat → Option UInt8} {va : Nat} {str : List UInt8}
    (h : StringAt read va str) :
    StringAt read' va str ↔ ∀ k ≤ str.length, read' (va + k) = read (va + k) := by
  induction str generalizing va with
  | nil =>
    rw [StringAt] at h ⊢
    constructor
    · intro h' k hk
      rw [Nat.le_zero.mp hk, Nat.add_zero, h, h']
    · intro hall
      rw [← h]
      exact hall 0 (Nat.le_refl _)
  | cons b str ih =>
    obtain ⟨hb, hne, hrest⟩ := h
    rw [StringAt, ih hrest]
    constructor
    · rintro ⟨hb', -, hall⟩ k hk
      cases k with
      | zero => rw [Nat.add_zero, hb, hb']
      | succ k =>
        have := hall k (Nat.le_of_succ_le_succ hk)
        rwa [Nat.add_right_comm] at this
    · intro hall
      refine ⟨(hall 0 (Nat.zero_le _)).trans hb, hne, fun k hk => ?_⟩
      have := hall (k + 1) (Nat.succ_le_succ hk)
      rwa [← Nat.add_assoc, Nat.add_right_comm] at this

/-- Every byte of a string, and its terminator, can be read. -/
theorem StringAt.exists_byte {read : Nat → Option UInt8} {va k : Nat} {str : List UInt8}
    (h : StringAt read va str) (hk : k ≤ str.length) : ∃ b, read (va + k) = some b := by
  induction str generalizing va k with
  | nil => exact ⟨0, by rwa [Nat.le_zero.mp hk]⟩
  | cons b str ih =>
    obtain ⟨hb, -, hrest⟩ := h
    cases k with
    | zero => exact ⟨b, hb⟩
    | succ k =>
      obtain ⟨b', hb'⟩ := ih hrest (Nat.le_of_succ_le_succ hk)
      exact ⟨b', by rwa [← Nat.add_assoc, Nat.add_right_comm]⟩

/-- A string is found at another address as well if the bytes there read the same. -/
theorem StringAt.congr {read : Nat → Option UInt8} {va va' : Nat} {str : List UInt8}
    (hread : ∀ k, read (va' + k) = read (va + k)) (h : StringAt read va str) :
    StringAt read va' str := by
  induction str generalizing va va' with
  | nil => exact (hread 0).trans h
  | cons b str ih =>
    obtain ⟨hb, hne, hrest⟩ := h
    refine ⟨(hread 0).trans hb, hne, ih (fun k => ?_) hrest⟩
    have := hread (k + 1)
    rwa [← Nat.add_assoc, ← Nat.add_assoc, Nat.add_right_comm, Nat.add_right_comm va] at this

/-- The character of a byte has the number of the byte. -/
theorem toNat_asChar (ch : UInt8) : (asChar ch).toNat = ch.toNat := by
  have hlt := ch.toNat_lt
  have hvalid : ch.toNat.isValidChar := .inl (by omega)
  rw [asChar, Char.ofNat, dif_pos hvalid]
  rfl

/-- Distinct bytes become distinct characters, so that the string tells the bytes. -/
theorem asChar_injective : Function.Injective asChar := by
  intro a b h
  apply UInt8.toNat_inj.mp
  rw [← toNat_asChar, ← toNat_asChar, h]

section

variable {mem : Nat → UInt8} {str : List UInt8} {va : Nat}

/-- A byte is read exactly where the access does not panic. -/
theorem strRead_eq_some {b : UInt8} :
    strRead translate pageTable mem va = some b ↔ strByte translate pageTable mem va = .ok b := by
  rw [strRead]
  cases strByte translate pageTable mem va with
  | error e =>
    constructor
    · intro h
      cases h
    · intro h
      cases h
  | ok ch =>
    constructor
    · intro h
      cases h
      rfl
    · intro h
      cases h
      rfl

/-- The byte read for an address depends on its lower 39 bits. -/
theorem strRead_mod (k : Nat) : strRead translate pageTable mem (va % 2 ^ 64 + k) =
    strRead translate pageTable mem (va + k) := by
  have hva : VirtAddr.ofUsize (va % 2 ^ 64 + k) = VirtAddr.ofUsize (va + k) := by
    rw [VirtAddr.ofUsize, VirtAddr.ofUsize, and_mask, and_mask, vaWidthSv39]
    congr 1
    omega
  rw [strRead, strRead, strByte, strByte, hva]

/-- A string is read to its end, character by character, with one iteration for each and one for
the zero. -/
theorem strLoop_of_stringAt
    (h : StringAt (strRead translate pageTable mem) va str)
    (hlt : va + str.length < 2 ^ 64) (s : List Char) :
    strLoop translate pageTable mem (str.length + 1) va s = some (.ok (s ++ str.map asChar)) := by
  induction str generalizing va s with
  | nil =>
    rw [List.length_nil, strLoop, strRead_eq_some.mp h]
    simp
  | cons b str ih =>
    obtain ⟨hb, hne, hrest⟩ := h
    rw [List.length_cons] at hlt ⊢
    rw [strLoop, strRead_eq_some.mp hb]
    dsimp only
    rw [if_neg hne, Nat.mod_eq_of_lt (by omega), ih hrest (by omega)]
    simp

/-- What the loop returns is a string that it has read. -/
theorem stringAt_of_strLoop {s s' : List Char}
    (h : strLoop translate pageTable mem fuel va s = some (.ok s')) :
    ∃ str, s' = s ++ str.map asChar ∧
      StringAt (strRead translate pageTable mem) va str := by
  induction fuel generalizing va s with
  | zero => cases h
  | succ fuel ih =>
    rw [strLoop] at h
    cases hbyte : strByte translate pageTable mem va with
    | error e =>
      rw [hbyte] at h
      cases h
    | ok ch =>
      rw [hbyte] at h
      dsimp only at h
      split at h
      · rename_i hzero
        cases h
        exact ⟨[], by simp, strRead_eq_some.mpr (hzero ▸ hbyte)⟩
      · rename_i hne
        obtain ⟨str, rfl, hstr⟩ := ih h
        refine ⟨ch :: str, by simp, strRead_eq_some.mpr hbyte, hne, ?_⟩
        exact hstr.congr fun k => (strRead_mod k).symm

/-- The loop returns a string if and only if it reads it. -/
theorem translatedStr_eq_iff_stringAt (hlt : ptr + str.length < 2 ^ 64) :
    (∃ fuel, translatedStr translate mem fuel token ptr = some (.ok (str.map asChar))) ↔
      StringAt (strRead translate (.fromToken token) mem) ptr str := by
  constructor
  · rintro ⟨fuel, h⟩
    obtain ⟨str', heq, hstr⟩ := stringAt_of_strLoop h
    rwa [List.map_injective_iff.mpr asChar_injective heq]
  · intro h
    exact ⟨str.length + 1, strLoop_of_stringAt h hlt []⟩

/-- The byte read for an address below `2 ^ 39` is the first one of the frame, which must not be
frame 0. -/
theorem strRead_eq_userByte_iff {b : UInt8} (hlt : va < 2 ^ 39)
    (hb : userByte translate pageTable mem va = some b) :
    strRead translate pageTable mem va = userByte translate pageTable mem va ↔
      ∃ pte, translate pageTable ⟨va / 4096⟩ = some pte ∧ pte.ppn.val ≠ 0 ∧
        userByte translate pageTable mem va = some (mem (pte.ppn.val * 4096)) := by
  have hfloor : (VirtAddr.ofUsize va).floor = ⟨va / 4096⟩ := by
    rw [VirtAddr.floor, VirtAddr.ofUsize_val, Nat.mod_eq_of_lt hlt, pageSize]
  rw [hb, strRead_eq_some, strByte, hfloor]
  cases translate pageTable ⟨va / 4096⟩ with
  | none =>
    constructor
    · intro h
      cases h
    · rintro ⟨pte, h, -⟩
      cases h
  | some pte =>
    have hpte := pte.ppn_lt
    have hpa : (PhysAddr.ofPpn pte.ppn).val = pte.ppn.val * 4096 := PhysAddr.ofPpn_val (by omega)
    dsimp only [PhysPageNum.getMut]
    rw [hpa]
    by_cases h0 : pte.ppn.val = 0
    · rw [if_pos (by omega)]
      constructor
      · intro h
        cases h
      · rintro ⟨_, h, hne, -⟩
        cases h
        exact absurd h0 hne
    · rw [if_neg (by omega)]
      constructor
      · intro h
        cases h
        exact ⟨pte, rfl, h0, rfl⟩
      · rintro ⟨_, h, -, heq⟩
        cases h
        rw [Option.some.inj heq]

/-- **When a string is read.** The bytes at `ptr` as the user sees them are `str` and a zero. Then
`translated_str` ends and returns these characters if and only if every one of the bytes, with the
zero, is the first byte of its page's frame, which is not frame 0. -/
theorem translatedStr_eq_iff (hlt : ptr + str.length < 2 ^ 39)
    (hstr : StringAt (userByte translate (.fromToken token) mem) ptr str) :
    (∃ fuel, translatedStr translate mem fuel token ptr = some (.ok (str.map asChar))) ↔
      ∀ k ≤ str.length, ∃ pte, translate (.fromToken token) ⟨(ptr + k) / 4096⟩ = some pte ∧
        pte.ppn.val ≠ 0 ∧
        userByte translate (.fromToken token) mem (ptr + k) = some (mem (pte.ppn.val * 4096)) := by
  rw [translatedStr_eq_iff_stringAt (by omega), hstr.iff_agree]
  refine forall₂_congr fun k hk => ?_
  obtain ⟨b, hb⟩ := hstr.exists_byte hk
  exact strRead_eq_userByte_iff (by omega) hb

/-- Two equal characters at the end of a page that is full of them, and a zero at the beginning of
the next one. -/
theorem translatedStr_eq_page_end :
    let translate : PageTable → VirtPageNum → Option PageTableEntry := fun _ vpn =>
      if vpn.val = 1 then some ⟨7 <<< 10 ||| 1⟩ else some ⟨8 <<< 10 ||| 1⟩
    let mem : Nat → UInt8 := fun a => if a / 4096 = 7 then 97 else 0
    ∃ fuel, translatedStr translate mem fuel 0 8190 = some (.ok ['a', 'a']) := by
  intro translate mem
  have hstr : StringAt (userByte translate (.fromToken 0) mem) 8190 [97, 97] := by decide
  refine (translatedStr_eq_iff (by decide) hstr).mpr fun k hk => ?_
  rcases k with _ | _ | _ | k
  · exact ⟨_, rfl, by decide, by decide⟩
  · exact ⟨_, rfl, by decide, by decide⟩
  · exact ⟨_, rfl, by decide, by decide⟩
  · exact absurd hk (by simp)

/-- The string "a" at offset 100 of a page that begins with "x". -/
theorem translatedStr_page_offset :
    let translate : PageTable → VirtPageNum → Option PageTableEntry := fun _ vpn =>
      if vpn.val = 1 then some ⟨7 <<< 10 ||| 1⟩ else none
    let mem : Nat → UInt8 := fun a =>
      if a = 7 * 4096 then 120 else if a = 7 * 4096 + 100 then 97 else 0
    StringAt (userByte translate (.fromToken 0) mem) 4196 [97] ∧
      ¬ ∃ fuel, translatedStr translate mem fuel 0 4196 = some (.ok ['a']) := by
  intro translate mem
  refine ⟨by decide, fun h => ?_⟩
  have hread : StringAt (strRead translate (.fromToken 0) mem) 4196 [97] :=
    (translatedStr_eq_iff_stringAt (by decide)).mp h
  exact absurd hread.1 (by decide)

end

end TinyOS
