import Mathlib

/-!
# A write-back cache, one line at a time

A `Line` is a place of a device together with the copy a cache may have of it and the flag that the
copy has been modified. What happens to a line is an `Act`; a cache of many places is a family of
lines, and an operation of it an act on each. The `value` of a line is what a reader sees. A line is
`Coherent` if a copy that has not been modified is the device's value; every act keeps that, and of
a coherent line only `modify` changes the value (`Step.value_eq`): the cache cannot be told from a
device that is modified directly.
-/

namespace WriteBack

/-- A place of the device and its copy in the cache, with the flag that the copy is modified. -/
structure Line (α : Type*) where
  device : α
  copy : Option (α × Bool)

/-- What can happen to a line: it is loaded, modified, written back or dropped from the cache. -/
inductive Act (α : Type*) where
  | keep
  | load
  | modify (g : α → α)
  | sync
  | drop

variable {α : Type*}

/-- What an act does to a device that is modified directly. -/
def Act.apply : Act α → α → α
  | .modify g, x => g x
  | .keep, x | .load, x | .sync, x | .drop, x => x

namespace Line

/-- What a reader sees: the copy if there is one, else the device. -/
def value (l : Line α) : α :=
  match l.copy with
  | some (x, _) => x
  | none => l.device

/-- The modified copy, if there is one: what is still to be written back. -/
def pending (l : Line α) : Option α :=
  match l.copy with
  | some (x, true) => some x
  | _ => none

/-- What an act writes to the device: the modified copy, if it writes one back. -/
def written (l : Line α) : Act α → Option α
  | .sync | .drop => l.pending
  | .keep | .load | .modify _ => none

/-- An act on a line, with the line it leaves; only what is in the cache can be modified. -/
inductive Step (l : Line α) : Act α → Line α → Prop where
  | keep : Step l .keep l
  | load (h : l.copy = none) : Step l .load ⟨l.device, some (l.device, false)⟩
  | modify {x : α} {m : Bool} {g : α → α} (h : l.copy = some (x, m)) :
      Step l (.modify g) ⟨l.device, some (g x, true)⟩
  | sync : Step l .sync ⟨l.pending.getD l.device, l.copy.map fun c => (c.1, false)⟩
  | drop : Step l .drop ⟨l.pending.getD l.device, none⟩

/-- A copy that is not modified is what the device has. -/
def Coherent (l : Line α) : Prop := ∀ x, l.copy = some (x, false) → l.device = x

variable {l l' : Line α} {a : Act α}

/-- A line with nothing to write back is coherent if device and copy agree. -/
theorem coherent_of_copy_eq {x : α} {m : Bool} (h : l.copy = some (x, m)) (hx : l.device = x) :
    l.Coherent := by
  intro y hy
  rw [h] at hy
  cases hy
  exact hx

/-- With a copy in the cache, a reader sees the copy. -/
theorem value_of_copy {x : α} {m : Bool} (h : l.copy = some (x, m)) : l.value = x := by
  rw [value, h]

/-- A line that is not cached, or has just been loaded. -/
theorem of_loaded (h : l.copy = none ∨ l.copy = some (l.device, false)) :
    l.Coherent ∧ l.value = l.device ∧ l.pending = none := by
  rcases h with h | h
  · refine ⟨?_, ?_, ?_⟩
    · intro x hx
      rw [h] at hx
      cases hx
    · rw [value, h]
    · rw [pending, h]
  · refine ⟨coherent_of_copy_eq h rfl, value_of_copy h, ?_⟩
    rw [pending, h]

/-- **Writing back leaves on the device what a reader sees.** -/
theorem Coherent.pending_getD (h : l.Coherent) : l.pending.getD l.device = l.value := by
  obtain ⟨device, copy⟩ := l
  cases copy with
  | none => rfl
  | some c =>
    obtain ⟨x, m⟩ := c
    cases m with
    | true => rfl
    | false => exact h x rfl

/-- An act keeps a line coherent: an unmodified copy is what the device has. -/
theorem Step.coherent (hs : Step l a l') (h : l.Coherent) : l'.Coherent := by
  cases hs with
  | keep => exact h
  | load _ => exact coherent_of_copy_eq rfl rfl
  | modify _ =>
    intro y hy
    cases hy
  | sync =>
    intro y hy
    obtain ⟨⟨x, m⟩, hc, hxy⟩ := Option.map_eq_some_iff.mp hy
    cases hxy
    exact h.pending_getD.trans (value_of_copy hc)
  | drop =>
    intro y hy
    cases hy

/-- **Only `modify` changes what a reader sees**, and it does what it would do to the device
directly. -/
theorem Step.value_eq (hs : Step l a l') (h : l.Coherent) : l'.value = a.apply l.value := by
  have hflush := h.pending_getD
  obtain ⟨device, copy⟩ := l
  cases hs with
  | keep => rfl
  | load hc =>
    cases hc
    rfl
  | modify hc =>
    cases hc
    rfl
  | sync =>
    cases copy with
    | none => rfl
    | some c => rfl
  | drop => exact hflush

/-- What an act does to the device: it has what was written, or is as before. -/
theorem Step.device_eq (hs : Step l a l') : l'.device = (l.written a).getD l.device := by
  cases hs with
  | keep | load _ | modify _ | sync | drop => rfl

/-- Only a modified copy is ever written to the device. -/
theorem pending_of_written {x : α} (h : l.written a = some x) : l.pending = some x := by
  cases a with
  | sync | drop => exact h
  | keep | load | modify _ => cases h

/-- After it was written back the device has what a reader saw. -/
theorem Step.device_eq_value (hs : Step l a l') (h : l.Coherent) (ha : a = .sync ∨ a = .drop) :
    l'.device = l.value := by
  rw [hs.device_eq, ← h.pending_getD]
  rcases ha with rfl | rfl
  · rfl
  · rfl

/-- Only a modification leaves a modified copy behind where there was none. -/
theorem Step.pending_of_isSome (hs : Step l a l') (h : l'.pending.isSome) :
    (∃ g, a = .modify g) ∨ l.pending.isSome ∧ l.written a = none := by
  cases hs with
  | keep => exact .inr ⟨h, rfl⟩
  | load _ => cases h
  | modify _ => exact .inl ⟨_, rfl⟩
  | sync =>
    obtain ⟨device, copy⟩ := l
    cases copy with
    | none => cases h
    | some c => cases h
  | drop => cases h

end Line

end WriteBack
