import TinyOS.Lib.Transition

/-!
# Bounded first-in first-out queues

The abstract queue of capacity `cap` is a list: `put` appends to a list shorter than `cap`, `get`
takes the head of a non-empty one. `Run.puts_eq` is what makes it a queue: over any run from the
empty queue, the values put are the values got followed by the values still queued.

A concrete queue usually keeps its values in an array that is read and written round and round.
`window f cap head n` is the list of the `n` values from position `head` on, taken modulo `cap`;
the three lemmas about it say what a write behind the window and a read in front of it do.
-/

namespace Fifo

open Transition

/-- What a client of a queue observes: a value put in, or a value got out. -/
inductive Event (α : Type*) where
  | put (a : α)
  | get (a : α)
  deriving DecidableEq

section
variable {α : Type*}

/-- The values put into the queue, in the order of the history. -/
def puts (tr : List (Event α)) : List α :=
  tr.filterMap fun | .put a => some a | .get _ => none

/-- The values got out of the queue, in the order of the history. -/
def gets (tr : List (Event α)) : List α :=
  tr.filterMap fun | .get a => some a | .put _ => none

/-- A value that is put is the last one of those that were put. -/
@[simp] theorem puts_snoc_put (tr : List (Event α)) (a : α) :
    puts (tr ++ [.put a]) = puts tr ++ [a] := by simp [puts]

/-- Getting a value out puts none in. -/
@[simp] theorem puts_snoc_get (tr : List (Event α)) (a : α) :
    puts (tr ++ [.get a]) = puts tr := by simp [puts]

/-- Putting a value in gets none out. -/
@[simp] theorem gets_snoc_put (tr : List (Event α)) (a : α) :
    gets (tr ++ [.put a]) = gets tr := by simp [gets]

/-- A value that is got is the last one of those that were got. -/
@[simp] theorem gets_snoc_get (tr : List (Event α)) (a : α) :
    gets (tr ++ [.get a]) = gets tr ++ [a] := by simp [gets]

/-! ## The queue -/

/-- A step of the queue of capacity `cap`: a value is put at the end, or the first one is got. -/
inductive Step (cap : Nat) : List α → Event α → List α → Prop where
  | put {q : List α} (a : α) (h : q.length < cap) : Step cap q (.put a) (q ++ [a])
  | get {q : List α} (a : α) : Step cap (a :: q) (.get a) q

/-- The bounded queue as a transition system, empty at the start. -/
def queue (α : Type*) (cap : Nat) : System (List α) (Event α) where
  init q := q = []
  step := Step cap

/-- **First in, first out.** Over any run from the empty queue, the values put are the values got
followed by the values still queued. -/
theorem puts_eq {cap : Nat} {tr : List (Event α)} {q : List α}
    (h : (queue α cap).Run [] tr q) : puts tr = gets tr ++ q := by
  refine h.history (I := fun tr q => puts tr = gets tr ++ q) rfl ?_
  intro tr q e q' ih hs
  cases hs with
  | put a _ => rw [puts_snoc_put, gets_snoc_put, ih, List.append_assoc]
  | get a => rw [puts_snoc_get, gets_snoc_get, ih, List.append_assoc]; rfl

/-- Values for which there is room can be put one after the other. -/
theorem run_puts {cap : Nat} {q l : List α} (h : q.length + l.length ≤ cap) :
    (queue α cap).Run q (l.map .put) (q ++ l) := by
  induction l using List.reverseRecOn with
  | nil =>
    rw [List.append_nil]
    exact .nil q
  | append_singleton l a ih =>
    rw [List.length_append, List.length_singleton] at h
    rw [List.map_append, ← List.append_assoc]
    refine (ih (by omega)).snoc (.put a ?_)
    rw [List.length_append]
    omega

/-! ## Windows of a circular array -/

/-- The `n` values of `f` from position `head` on, modulo `cap`. -/
def window (f : Nat → α) (cap head n : Nat) : List α :=
  (List.range n).map fun i => f ((head + i) % cap)

/-- Reading in front of a window: its first value, and the window one position further. -/
theorem window_succ (f : Nat → α) (cap head n : Nat) :
    window f cap head (n + 1) = f (head % cap) :: window f cap ((head + 1) % cap) n := by
  rw [window, List.range_succ_eq_map, List.map_cons, List.map_map, Nat.add_zero]
  refine congrArg _ (List.map_congr_left fun i _ => ?_)
  show f ((head + (i + 1)) % cap) = f (((head + 1) % cap + i) % cap)
  rw [Nat.mod_add_mod, Nat.add_assoc, Nat.add_comm 1 i]

/-- Two positions of one window of at most `cap` values are different places of the array. -/
theorem window_index_inj {cap head i j : Nat} (hij : i < j) (hj : j < cap) :
    (head + i) % cap ≠ (head + j) % cap := by
  intro h
  have h' : Nat.ModEq cap i j := Nat.ModEq.add_left_cancel' head h
  exact hij.ne (h'.eq_of_lt_of_lt (hij.trans hj) hj)

/-- Writing behind a window that has room: the value is appended. -/
theorem window_update (f : Nat → α) (a : α) {cap head n : Nat} (hn : n < cap) :
    window (Function.update f ((head + n) % cap) a) cap head (n + 1) =
      window f cap head n ++ [a] := by
  rw [window, List.range_succ, List.map_append, List.map_singleton, Function.update_self]
  refine congrArg (· ++ [a]) (List.map_congr_left fun i hi => ?_)
  exact Function.update_of_ne (window_index_inj (List.mem_range.mp hi) hn) a f

/-- A window only depends on the array's places below the capacity. -/
theorem window_congr {f g : Nat → α} {cap head n : Nat} (hc : 0 < cap)
    (h : ∀ i, i < cap → f i = g i) : window f cap head n = window g cap head n :=
  List.map_congr_left fun _ _ => h _ (Nat.mod_lt _ hc)

end

end Fifo
