import TinyOS.Lib.Transition

/-!
# Descriptor tables

`alloc_fd` of `phase_6_shell/src/syscall/fs.rs`, which finds or pushes an empty slot and leaves the
storing to its caller, and `alloc_fd` of `phase_5_fs/src/syscall/fs.rs`, which stores the file
itself. `install` is the first one followed by the assignment its callers make
(`inner.fd_table[fd] = Some(file)`), and `install_eq` says that it is the second one.

`system` is the table of a process under installs and closes, from the three standard descriptors
on. What a file is does not matter here.
-/

namespace TinyOS

open Transition

/-- `Vec<Option<FilePtr>>`, the descriptor table of a process; a descriptor is an index, and a
closed one has `None`. -/
abbrev FdTable (α : Type*) := List (Option α)

namespace FdTable

variable {α : Type*} {t t' : FdTable α} {file f : α} {k fd : Nat}

/-- `alloc_fd` of `phase_6_shell`: the descriptor and the table, which is one slot longer if
none was free. -/
def allocFd (t : FdTable α) : Nat × FdTable α :=
  match t.findIdx? Option.isNone with
  | some i => (i, t)
  | none => ((t ++ [none]).length - 1, t ++ [none])

/-- `alloc_fd` in `phase_6_shell`, and the file stored at the descriptor. -/
def install (t : FdTable α) (file : α) : Nat × FdTable α :=
  (t.allocFd.1, t.allocFd.2.set t.allocFd.1 (some file))

/-- The loop of `alloc_fd` in `phase_5_fs`, at slot `i`: it stores the file in the first slot
that is free. -/
def Phase5.storeLoop (file : α) : Nat → FdTable α → Option (Nat × FdTable α)
  | _, [] => none
  | i, none :: slots => some (i, some file :: slots)
  | i, some f :: slots =>
    (storeLoop file (i + 1) slots).map fun (fd, slots) => (fd, some f :: slots)

/-- `alloc_fd` of `phase_5_fs`, which stores the file itself, in the first free slot or a new
one. -/
def Phase5.allocFd (t : FdTable α) (file : α) : Nat × FdTable α :=
  match storeLoop file 0 t with
  | some r => r
  | none => ((t ++ [some file]).length - 1, t ++ [some file])

/-- Closing a descriptor. One that is out of range is refused. -/
def close (t : FdTable α) (fd : Nat) : FdTable α := t.set fd none

/-- The file of an open descriptor; there is none for one that is closed or out of range. -/
def file? (t : FdTable α) (fd : Nat) : Option α := t[fd]?.join

/-- What happens to a table: a file is installed and gets a descriptor, or a descriptor is
closed. -/
inductive Event (α : Type*) where
  | install (file : α) (fd : Nat)
  | close (fd : Nat)

/-- A step of a table by its own code, with the descriptor `install` returns. -/
inductive Step : FdTable α → Event α → FdTable α → Prop where
  | install (t : FdTable α) (file : α) :
      Step t (.install file (t.install file).1) (t.install file).2
  | close (t : FdTable α) (fd : Nat) : Step t (.close fd) (t.close fd)

/-- A table and its history, with some three files as standard descriptors. -/
def system (α : Type*) : System (FdTable α) (Event α) where
  init t := ∃ stdin stdout stderr : α, t = [some stdin, some stdout, some stderr]
  step := Step

/-! ## Allocation -/

/-- What `alloc_fd` returns: the lowest free slot, or a new slot behind a table that has none
free. -/
theorem allocFd_spec (t : FdTable α) :
    IsLeast {i | t[i]? = some none} t.allocFd.1 ∧ t.allocFd.2 = t ∨
      none ∉ t ∧ t.allocFd = (t.length, t ++ [none]) := by
  unfold allocFd
  cases h : t.findIdx? Option.isNone with
  | some i =>
    obtain ⟨hi, hnone, hleast⟩ := List.findIdx?_eq_some_iff_getElem.mp h
    refine .inl ⟨⟨?_, fun j hj => ?_⟩, rfl⟩
    · rw [Set.mem_ofPred_eq, List.getElem?_eq_getElem hi, Option.isNone_iff_eq_none.mp hnone]
    · by_contra hlt
      obtain ⟨hj', hjnone⟩ := List.getElem?_eq_some_iff.mp hj
      exact hleast j (not_le.mp hlt) (by rw [hjnone]; rfl)
  | none =>
    refine .inr ⟨fun hmem => ?_, by simp⟩
    cases List.findIdx?_eq_none_iff.mp h none hmem

/-- The descriptor is in range, and all slots that were there are there. -/
theorem allocFd_frame (t : FdTable α) : t.allocFd.1 < t.allocFd.2.length ∧ t <+: t.allocFd.2 := by
  obtain ⟨⟨hmem, -⟩, ht⟩ | ⟨-, ht⟩ := allocFd_spec t
  · rw [ht]
    exact ⟨(List.getElem?_eq_some_iff.mp hmem).1, List.prefix_rfl⟩
  · rw [ht]
    exact ⟨by simp, List.prefix_append ..⟩

/-- The loop stores the file in the first empty slot. -/
theorem Phase5.storeLoop_eq (file : α) (t : FdTable α) (i : Nat) :
    storeLoop file i t =
      (t.findIdx? Option.isNone).map fun k => (i + k, t.set k (some file)) := by
  induction t generalizing i with
  | nil => rfl
  | cons slot t ih =>
    cases slot with
    | none => rfl
    | some f =>
      rw [storeLoop, ih, List.findIdx?_cons]
      cases t.findIdx? Option.isNone with
      | none => rfl
      | some k => simp [Nat.add_assoc, Nat.add_comm 1 k]

/-- **The two versions agree**: an `alloc_fd` and a store do what the loop of `phase_5_fs` does
in one go. -/
theorem install_eq (t : FdTable α) (file : α) : t.install file = Phase5.allocFd t file := by
  rw [install, allocFd, Phase5.allocFd, Phase5.storeLoop_eq]
  cases t.findIdx? Option.isNone with
  | none => simp
  | some k => simp

/-! ## Histories -/

/-- The descriptor of an install is not open, so that no file is replaced by the new one. -/
theorem file?_allocFd (t : FdTable α) : t.file? t.allocFd.1 = none := by
  obtain ⟨⟨hmem, -⟩, -⟩ | ⟨-, ht⟩ := allocFd_spec t
  · rw [file?, hmem.out]
    rfl
  · simp [file?, ht]

/-- After an install the new descriptor is that of the installed file. -/
theorem file?_install_self (t : FdTable α) (file : α) :
    (t.install file).2.file? (t.install file).1 = some file := by
  rw [file?, install, List.getElem?_set_self (allocFd_frame t).1]
  rfl

/-- An install changes no other descriptor, also where it makes the table longer. -/
theorem file?_install_of_ne (h : k ≠ t.allocFd.1) : (t.install file).2.file? k = t.file? k := by
  show (t.allocFd.2.set t.allocFd.1 (some file))[k]?.join = _
  rw [List.getElem?_set_ne (Ne.symm h)]
  obtain ⟨-, ht⟩ | ⟨-, ht⟩ := allocFd_spec t
  · rw [ht]
    rfl
  · rw [ht] at h
    rw [ht, file?]
    rcases lt_or_gt_of_ne h with hlt | hgt
    · rw [List.getElem?_append_left hlt]
    · rw [List.getElem?_eq_none (by simp; omega), List.getElem?_eq_none (by omega)]

/-- Closing a descriptor takes away its file and changes no other one. -/
theorem file?_close (t : FdTable α) (fd k : Nat) :
    (t.close fd).file? k = if k = fd then none else t.file? k := by
  rw [file?, close, List.getElem?_set]
  by_cases h : fd = k
  · by_cases hk : k < t.length <;> simp [h, hk]
  · rw [if_neg h, if_neg (Ne.symm h), file?]

/-- A step keeps the file of an open descriptor it does not close. -/
theorem Step.file? {e : Event α} (h : Step t e t') (hf : t.file? k = some f)
    (hclose : e ≠ .close k) : t'.file? k = some f := by
  cases h with
  | install file =>
    rw [file?_install_of_ne fun hk => ?_, hf]
    rw [hk, file?_allocFd] at hf
    cases hf
  | close fd =>
    rwa [file?_close, if_neg fun hk => hclose (by rw [hk])]

/-- A run keeps the file of an open descriptor it does not close. -/
theorem file?_run {tr : List (Event α)} (h : (system α).Run t tr t') (hf : t.file? k = some f)
    (hclose : .close k ∉ tr) : t'.file? k = some f := by
  refine h.history (I := fun tr t' => .close k ∉ tr → t'.file? k = some f) (fun _ => hf) ?_ hclose
  intro tr t₁ e t₂ ih hstep hnot
  rw [List.mem_append, List.mem_singleton, not_or] at hnot
  exact Step.file? hstep (ih hnot.1) (Ne.symm hnot.2)

/-- `k` is the lowest descriptor that is not open: all below it are, and it is not itself. -/
structure LowestFree (t : FdTable α) (k : Nat) : Prop where
  free : t.file? k = none
  below : ∀ j < k, (t.file? j).isSome

/-- An install takes the lowest descriptor that is not open. -/
theorem LowestFree.install_eq (h : t.LowestFree k) (file : α) : (t.install file).1 = k := by
  rw [install]
  rcases lt_trichotomy t.allocFd.1 k with hlt | heq | hgt
  · have hopen := h.below _ hlt
    rw [file?_allocFd] at hopen
    cases hopen
  · exact heq
  · exfalso
    have hfree := h.free
    -- All slots below the new descriptor are taken.
    obtain ⟨⟨hmem, hleast⟩, -⟩ | ⟨hnone, ht⟩ := allocFd_spec t
    · have hk : k < t.length := hgt.trans (List.getElem?_eq_some_iff.mp hmem).1
      rw [FdTable.file?, List.getElem?_eq_getElem hk] at hfree
      have hslot : t[k]? = some none := by rw [List.getElem?_eq_getElem hk]; exact congrArg _ hfree
      exact absurd (hleast hslot) (not_le.mpr hgt)
    · rw [ht] at hgt
      rw [FdTable.file?, List.getElem?_eq_getElem hgt] at hfree
      exact hnone ((show t[k] = none from hfree) ▸ List.getElem_mem hgt)

/-- Closing a descriptor below which all are open makes it the lowest free one. -/
theorem LowestFree.of_close (h : ∀ j < k, (t.file? j).isSome) : (t.close k).LowestFree k where
  free := by rw [file?_close, if_pos rfl]
  below j hj := by rw [file?_close, if_neg (Nat.ne_of_lt hj)]; exact h j hj

/-- Closing other descriptors above the lowest free one does not matter to it. -/
theorem LowestFree.run {tr : List (Event α)} (h : t.LowestFree k) (hrun : (system α).Run t tr t')
    (htr : ∀ e ∈ tr, ∃ j, k < j ∧ e = .close j) : t'.LowestFree k := by
  refine hrun.history (I := fun tr t' => (∀ e ∈ tr, ∃ j, k < j ∧ e = .close j) → t'.LowestFree k)
    (fun _ => h) ?_ htr
  intro tr t₁ e t₂ ih hstep hclose
  rw [List.forall_mem_append] at hclose
  obtain ⟨j, hj, rfl⟩ := hclose.2 e (List.mem_singleton_self e)
  obtain ⟨hfree, hbelow⟩ := ih hclose.1
  cases hstep with
  | close =>
    refine ⟨?_, fun i hi => ?_⟩
    · rw [file?_close, if_neg (Nat.ne_of_lt hj), hfree]
    · rw [file?_close, if_neg (by omega)]
      exact hbelow i hi

/-- **Allocation is lowest-free and never clobbers.** The two versions are one, and over every
history an install takes a descriptor that is not open, the file of an open descriptor stays, and a
descriptor that is closed while all below it are open is the next one. -/
theorem lowest_free_never_clobbers :
    (∀ t : FdTable α,
      (IsLeast {i | t[i]? = some none} t.allocFd.1 ∨ none ∉ t ∧ t.allocFd.1 = t.length) ∧
      t.allocFd.1 < t.allocFd.2.length ∧ t <+: t.allocFd.2) ∧
    (∀ (t : FdTable α) (file : α), t.install file = Phase5.allocFd t file) ∧
    ∀ t : FdTable α, (system α).Reachable t →
      (∀ file fd t', (system α).step t (.install file fd) t' →
        t.file? fd = none ∧ t'.file? fd = some file ∧ ∀ k ≠ fd, t'.file? k = t.file? k) ∧
      (∀ k f, t.file? k = some f →
        ∀ tr t', (system α).Run t tr t' → .close k ∉ tr → t'.file? k = some f) ∧
      ∀ k, (∀ j < k, (t.file? j).isSome) →
        ∀ t₁ tr t₂ file fd t₃, (system α).step t (.close k) t₁ → (system α).Run t₁ tr t₂ →
          (∀ e ∈ tr, ∃ j, k < j ∧ e = .close j) →
          (system α).step t₂ (.install file fd) t₃ → fd = k := by
  refine ⟨fun t => ⟨?_, allocFd_frame t⟩, install_eq, fun t _ => ⟨?_, ?_, ?_⟩⟩
  · obtain ⟨h, -⟩ | ⟨h, ht⟩ := allocFd_spec t
    · exact .inl h
    · exact .inr ⟨h, by rw [ht]⟩
  · intro file fd t' hstep
    cases hstep with
    | install =>
      exact ⟨file?_allocFd t, file?_install_self t file, fun k hk => file?_install_of_ne hk⟩
  · intro k f hf tr t' hrun hclose
    exact file?_run hrun hf hclose
  · intro k hbelow t₁ tr t₂ file fd t₃ hclose hrun htr hinstall
    cases hclose
    cases hinstall
    exact ((LowestFree.of_close hbelow).run hrun htr).install_eq file

/-- The shell's redirection: close standard output and install another file. -/
theorem lowest_free_never_clobbers_redirect :
    ∃ t, (system Nat).step [some 0, some 1, some 2] (.close 1) t ∧
      ∀ fd t', (system Nat).step t (.install 7 fd) t' → fd = 1 := by
  refine ⟨_, .close _ 1, fun fd t' h => ?_⟩
  have hinit : (system Nat).Reachable [some 0, some 1, some 2] := .of_init ⟨0, 1, 2, rfl⟩
  exact (lowest_free_never_clobbers.2.2 _ hinit).2.2 1 (by decide) _ [] _ 7 fd t' (.close _ 1)
    (.nil _) (by nofun) h

end FdTable

end TinyOS
