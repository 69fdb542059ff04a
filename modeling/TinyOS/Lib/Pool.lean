import Mathlib

/-!
# Pools of cells

A pool hands out cells that hold `zero`, takes them back, and between the two their owners write
them. `Does` says what an event has to do to the cells that are out and to what they hold; `Kept`
is what the owners get for it over a whole history: nobody shares a cell, and in each cell is what
was written there last (`Kept.step`). A cell that is not `real` has no memory behind it and is
exempt from the second part.
-/

namespace Pool

variable {ι V : Type*} [DecidableEq ι]

/-- What happens to a pool: a cell is handed out, taken back or written, or something else is
done. -/
inductive Event (ι V : Type*) where
  | alloc (i : ι)
  | free (i : ι)
  | write (i : ι) (v : V)
  | other

/-- The cell an event is about, if it is about a cell of the pool. -/
def Event.cell : Event ι V → Option ι
  | .alloc i | .free i | .write i _ => some i
  | .other => none

/-- What an owner of a cell has to find there. -/
def lastWritten (zero : V) (i : ι) : List (Event ι V) → V :=
  List.foldl (fun v e => match e with
    | .alloc j => if j = i then zero else v
    | .write j v' => if j = i then v' else v
    | .free _ | .other => v) zero

variable {zero : V} {real : ι → Prop} {owned owned' : List ι} {view view' : ι → V}
  {e : Event ι V} {tr : List (Event ι V)} {i : ι}

/-- Events about other cells do not count for what was written to a cell last. -/
theorem lastWritten_snoc_of_ne (tr : List (Event ι V)) (h : e.cell ≠ some i) :
    lastWritten zero i (tr ++ [e]) = lastWritten zero i tr := by
  rw [lastWritten, List.foldl_append]
  cases e with
  | alloc j | write j v => exact if_neg fun heq => h (congrArg some heq)
  | free | other => rfl

/-- A cell that was just handed out holds zero. -/
@[simp] theorem lastWritten_snoc_alloc (tr : List (Event ι V)) :
    lastWritten zero i (tr ++ [.alloc i]) = zero := by
  rw [lastWritten, List.foldl_append]
  exact if_pos rfl

/-- A cell that was just written holds what was written. -/
@[simp] theorem lastWritten_snoc_write (tr : List (Event ι V)) (v : V) :
    lastWritten zero i (tr ++ [.write i v]) = v := by
  rw [lastWritten, List.foldl_append]
  exact if_pos rfl

/-- What an event does to the cells that are out and to what the cells hold. -/
structure Does (zero : V) (real : ι → Prop) (owned : List ι) (view : ι → V) (e : Event ι V)
    (owned' : List ι) (view' : ι → V) : Prop where
  frame : ∀ i ∈ owned, e.cell ≠ some i → view' i = view i
  owns : match e with
    | .alloc i => i ∉ owned ∧ owned' = i :: owned ∧ (real i → view' i = zero)
    | .free i => owned' = owned.erase i
    | .write i v => owned' = owned ∧ (i ∈ owned → view' i = v)
    | .other => owned' = owned

/-- Nobody shares a cell, and every owner finds what it wrote last. -/
structure Kept (zero : V) (real : ι → Prop) (tr : List (Event ι V)) (owned : List ι)
    (view : ι → V) : Prop where
  nodup : owned.Nodup
  content : ∀ i ∈ owned, real i → view i = lastWritten zero i tr

/-- Before anything has been handed out there is nothing to keep. -/
theorem Kept.nil (zero : V) (real : ι → Prop) (view : ι → V) : Kept zero real [] [] view :=
  ⟨List.nodup_nil, nofun⟩

/-- **A history grows by an event** that does to the cells what it should, and the owners still
find what they wrote. -/
theorem Kept.step (h : Kept zero real tr owned view)
    (hdoes : Does zero real owned view e owned' view') :
    Kept zero real (tr ++ [e]) owned' view' := by
  -- the cells the event is not about
  have hother : ∀ i ∈ owned, real i → e.cell ≠ some i →
      view' i = lastWritten zero i (tr ++ [e]) := by
    intro i hi hreal hne
    rw [hdoes.frame i hi hne, lastWritten_snoc_of_ne tr hne]
    exact h.content i hi hreal
  have howns := hdoes.owns
  cases e with
  | alloc j =>
    obtain ⟨hfree, rfl, hzero⟩ := howns
    refine ⟨List.nodup_cons.mpr ⟨hfree, h.nodup⟩, fun i hi hreal => ?_⟩
    rcases List.mem_cons.mp hi with rfl | hi
    · rw [lastWritten_snoc_alloc]
      exact hzero hreal
    · refine hother i hi hreal fun heq => ?_
      cases heq
      exact hfree hi
  | free j =>
    obtain rfl : owned' = owned.erase j := howns
    refine ⟨h.nodup.erase j, fun i hi hreal => ?_⟩
    obtain ⟨hne, hi⟩ := h.nodup.mem_erase_iff.mp hi
    exact hother i hi hreal fun heq => hne (Option.some.inj heq).symm
  | write j v =>
    obtain ⟨rfl, hv⟩ := howns
    refine ⟨h.nodup, fun i hi hreal => ?_⟩
    by_cases hij : j = i
    · subst hij
      rw [lastWritten_snoc_write]
      exact hv hi
    · exact hother i hi hreal fun heq => hij (Option.some.inj heq)
  | other =>
    obtain rfl : owned' = owned := howns
    exact ⟨h.nodup, fun i hi hreal => hother i hi hreal nofun⟩

end Pool
