import TinyOS.Fs.FdTable
import TinyOS.Fs.Pipe

/-!
# The ends of a pipe

Who can read from a pipe and who can write to it, over all processes of `phase_6_shell`:
`make_pipe` (`fs/pipe.rs`), the descriptor tables with `sys_read`, `sys_write` and `sys_exit`
(`syscall/fs.rs`, `syscall/process.rs`). `sys_pipe`, `sys_dup`, `sys_close`, `sys_fork`,
`Pipe::read` and `Pipe::write` are exercises and do what their comments require: a read takes the
bytes one by one, waits if there is none, and ends early only if there is none and
`all_write_ends_closed` holds, which looks at the `Weak` reference to the write end; a write puts
all its bytes one by one and waits if there is no room.

A reference to an end comes from another one, but for the two that `sys_pipe` makes
(`Step.refers`). So a write end that is gone is gone for good, and the end of file a reader sees is
the end (`run_eof`).

Left out: files that are no pipes, which have no part in this.
-/

namespace TinyOS.Pipes

open Transition

/-- What a descriptor refers to: an end of the pipe with some number, or something else. -/
inductive FileRef where
  | other
  | readEnd (k : Nat)
  | writeEnd (k : Nat)
  deriving DecidableEq

/-- What a process does. In `read` and `write` it holds a clone of the `Arc`; `left` is what is left
of the user's buffer. -/
inductive Activity where
  | user
  | reading (k left : Nat)
  | writing (k : Nat) (left : List UInt8)
  | exited
  deriving DecidableEq

/-- The clone of the `Arc` in `sys_read` or `sys_write`, which keeps an end open while the call
is under way. -/
def Activity.file : Activity → Option FileRef
  | .reading k _ => some (.readEnd k)
  | .writing k _ => some (.writeEnd k)
  | .user | .exited => none

/-- The processes `0, …, procs - 1` and the pipes `0, …, pipes - 1`. -/
structure State where
  procs : Nat
  pipes : Nat
  fdTable : Nat → FdTable FileRef
  activity : Nat → Activity
  ring : Nat → PipeRingBuffer

/-- What the processes do: the system calls, and the single bytes and ends of a read or a write
that is under way. -/
inductive Event where
  | pipe (p k : Nat)
  | dup (p fd : Nat)
  | close (p fd : Nat)
  | fork (p c : Nat)
  | exit (p : Nat)
  | read (p fd len : Nat)
  | write (p fd : Nat) (buf : List UInt8)
  | get (p k : Nat) (b : UInt8)
  | put (p k : Nat) (b : UInt8)
  | readDone (p k : Nat)
  | eof (p k : Nat)
  | writeDone (p k : Nat)

namespace State

/-- `Arc::strong_count` of an end: the descriptors that refer to it, and the clones of the
system calls under way. -/
def strong (s : State) (f : FileRef) : Nat :=
  ((List.range s.procs).map fun p =>
    (s.fdTable p).count (some f) + (s.activity p).file.toList.count f).sum

/-- `all_write_ends_closed`: the `Weak` reference to the write end cannot be upgraded, as no
`Arc` of it is left. -/
def allWriteEndsClosed (s : State) (k : Nat) : Bool := s.strong (.writeEnd k) = 0

/-- The state with another descriptor table for one process, and all else as it was. -/
def setTable (s : State) (p : Nat) (t : FdTable FileRef) : State :=
  { s with fdTable := Function.update s.fdTable p t }

/-- The state with one process doing something else, and all else as it was. -/
def setActivity (s : State) (p : Nat) (a : Activity) : State :=
  { s with activity := Function.update s.activity p a }

/-- The state with another ring buffer for one pipe, and all else as it was. -/
def setRing (s : State) (k : Nat) (r : PipeRingBuffer) : State :=
  { s with ring := Function.update s.ring k r }

/-- `sys_pipe` with `make_pipe`: the read end gets the first descriptor. -/
def sysPipe (s : State) (p : Nat) : State :=
  let t := ((s.fdTable p).install (.readEnd s.pipes)).2
  let t := (t.install (.writeEnd s.pipes)).2
  { s.setTable p t with
    pipes := s.pipes + 1
    ring := Function.update s.ring s.pipes .new }

/-- `sys_fork`: the child gets a clone of every `Arc` in its parent's table, under the same
descriptors. -/
def sysFork (s : State) (p : Nat) : State :=
  { s with
    procs := s.procs + 1
    fdTable := Function.update s.fdTable s.procs (s.fdTable p)
    activity := Function.update s.activity s.procs .user }

/-- `sys_exit`: `slot.take()` for every slot of the table, and the process is gone. -/
def sysExit (s : State) (p : Nat) : State :=
  (s.setTable p ((s.fdTable p).map fun _ => none)).setActivity p .exited

end State

/-- What can happen next: a system call of a process in user mode, or the next byte or the end
of one that is under way. -/
inductive Step (s : State) : Event → State → Prop where
  | pipe {p : Nat} (hp : p < s.procs) (huser : s.activity p = .user) :
      Step s (.pipe p s.pipes) (s.sysPipe p)
  | dup {p fd : Nat} {f : FileRef} (hp : p < s.procs) (huser : s.activity p = .user)
      (hf : (s.fdTable p).file? fd = some f) :
      Step s (.dup p fd) (s.setTable p ((s.fdTable p).install f).2)
  | close {p fd : Nat} (hp : p < s.procs) (huser : s.activity p = .user) :
      Step s (.close p fd) (s.setTable p ((s.fdTable p).close fd))
  | fork {p : Nat} (hp : p < s.procs) (huser : s.activity p = .user) :
      Step s (.fork p s.procs) (s.sysFork p)
  | exit {p : Nat} (hp : p < s.procs) (huser : s.activity p = .user) :
      Step s (.exit p) (s.sysExit p)
  | read {p fd k : Nat} (len : Nat) (hp : p < s.procs) (huser : s.activity p = .user)
      (hf : (s.fdTable p).file? fd = some (.readEnd k)) :
      Step s (.read p fd len) (s.setActivity p (.reading k len))
  | write {p fd k : Nat} (buf : List UInt8) (hp : p < s.procs) (huser : s.activity p = .user)
      (hf : (s.fdTable p).file? fd = some (.writeEnd k)) :
      Step s (.write p fd buf) (s.setActivity p (.writing k buf))
  | get {p k left : Nat} {b : UInt8} {r : PipeRingBuffer} (hp : p < s.procs)
      (ha : s.activity p = .reading k (left + 1)) (havail : (s.ring k).availableRead ≠ 0)
      (hr : (s.ring k).readByte = some (b, r)) :
      Step s (.get p k b) ((s.setActivity p (.reading k left)).setRing k r)
  | put {p k : Nat} {b : UInt8} {left : List UInt8} {r : PipeRingBuffer} (hp : p < s.procs)
      (ha : s.activity p = .writing k (b :: left)) (havail : (s.ring k).availableWrite ≠ 0)
      (hr : (s.ring k).writeByte b = some r) :
      Step s (.put p k b) ((s.setActivity p (.writing k left)).setRing k r)
  | readDone {p k : Nat} (hp : p < s.procs) (ha : s.activity p = .reading k 0) :
      Step s (.readDone p k) (s.setActivity p .user)
  | eof {p k left : Nat} (hp : p < s.procs) (ha : s.activity p = .reading k (left + 1))
      (havail : (s.ring k).availableRead = 0) (hclosed : s.allWriteEndsClosed k = true) :
      Step s (.eof p k) (s.setActivity p .user)
  | writeDone {p k : Nat} (hp : p < s.procs) (ha : s.activity p = .writing k []) :
      Step s (.writeDone p k) (s.setActivity p .user)

/-- The first process, with `Stdin` and two times `Stdout` in its table, and no pipe made yet. -/
def boot : State where
  procs := 1
  pipes := 0
  fdTable _ := [some .other, some .other, some .other]
  activity _ := .user
  ring _ := .new

/-- The kernel from the first process on, with its standard descriptors and no pipe. -/
def system : System State Event where
  init s := s = boot
  step := Step

/-- The bytes written to a pipe, by all its writers, in the order they were put. -/
def written (k : Nat) (tr : List Event) : List UInt8 :=
  tr.filterMap fun
    | .put _ k' b => if k' = k then some b else none
    | _ => none

/-- The bytes read from a pipe, by all its readers, in the order they were got. -/
def received (k : Nat) (tr : List Event) : List UInt8 :=
  tr.filterMap fun
    | .get _ k' b => if k' = k then some b else none
    | _ => none

/-! ## References -/

variable {s s' : State} {e : Event} {f : FileRef} {k p : Nat} {tr : List Event}

/-- Some process has an `Arc` of the end: in its descriptor table, or in a call that is under
way. -/
def Refers (s : State) (p : Nat) (f : FileRef) : Prop :=
  p < s.procs ∧ (some f ∈ s.fdTable p ∨ (s.activity p).file = some f)

/-- The count of an end is zero exactly if no process refers to it. -/
theorem strong_eq_zero_iff : s.strong f = 0 ↔ ∀ p, ¬ Refers s p f := by
  rw [State.strong, List.sum_eq_zero_iff]
  constructor
  · rintro h p ⟨hp, hmem⟩
    have hzero := h _ (List.mem_map_of_mem (List.mem_range.mpr hp))
    rw [Nat.add_eq_zero_iff, List.count_eq_zero, List.count_eq_zero, Option.mem_toList] at hzero
    exact hmem.elim hzero.1 hzero.2
  · intro h n hn
    obtain ⟨p, hp, rfl⟩ := List.mem_map.mp hn
    rw [List.mem_range] at hp
    rw [Nat.add_eq_zero_iff, List.count_eq_zero, List.count_eq_zero, Option.mem_toList]
    exact ⟨fun hmem => h p ⟨hp, .inl hmem⟩, fun hfile => h p ⟨hp, .inr hfile⟩⟩

/-- A file of a table with one more was there or is the new one. -/
theorem mem_install {t : FdTable FileRef} {g : FileRef} (h : some f ∈ (t.install g).2) :
    some f ∈ t ∨ f = g := by
  rcases List.mem_or_eq_of_mem_set h with h | h
  · left
    obtain ⟨-, ht⟩ | ⟨-, ht⟩ := FdTable.allocFd_spec t
    · rwa [ht] at h
    · rw [ht] at h
      simpa using h
  · exact .inr (Option.some.inj h)

/-- The file of an open descriptor is in the table, so that its process refers to it. -/
theorem mem_of_file? {t : FdTable FileRef} {fd : Nat} (h : t.file? fd = some f) : some f ∈ t := by
  rw [FdTable.file?, Option.join_eq_some_iff] at h
  exact List.mem_of_getElem? h

/-- A file that is in a table after a descriptor was closed was there before. -/
theorem mem_close {t : FdTable FileRef} {fd : Nat} (h : some f ∈ t.close fd) : some f ∈ t := by
  rcases List.mem_or_eq_of_mem_set h with h | h
  · exact h
  · cases h

/-- **Where a reference comes from.** A process has it already, gets it from its parent by
`fork`, or has just made the pipe. -/
theorem Step.refers {q : Nat} (hs : Step s e s') (h : Refers s' q f) :
    Refers s q f ∨ (∃ p, e = .fork p q ∧ Refers s p f) ∨
      (∃ p, e = .pipe p s.pipes) ∧ (f = .readEnd s.pipes ∨ f = .writeEnd s.pipes) := by
  -- a table that changes has files of the process itself only
  have htable : ∀ {p t}, Refers (s.setTable p t) q f → (some f ∈ t → some f ∈ s.fdTable p) →
      Refers s q f := by
    intro p t h hsub
    obtain ⟨hq, h⟩ := h
    by_cases hqp : q = p
    · subst hqp
      simp only [State.setTable, Function.update_self] at h
      exact ⟨hq, h.imp hsub id⟩
    · simp only [State.setTable, Function.update_of_ne hqp] at h
      exact ⟨hq, h⟩
  -- a call that begins, goes on or ends has no other end than before
  have hcall : ∀ {p a}, Refers (s.setActivity p a) q f →
      (a.file = some f → some f ∈ s.fdTable p ∨ (s.activity p).file = some f) →
      Refers s q f := by
    intro p a h hfile
    obtain ⟨hq, h⟩ := h
    by_cases hqp : q = p
    · subst hqp
      simp only [State.setActivity, Function.update_self] at h
      exact ⟨hq, h.elim .inl hfile⟩
    · simp only [State.setActivity, Function.update_of_ne hqp] at h
      exact ⟨hq, h⟩
  cases hs with
  | @pipe p hp _ =>
    by_cases hnew : f = .readEnd s.pipes ∨ f = .writeEnd s.pipes
    · exact .inr (.inr ⟨⟨p, rfl⟩, hnew⟩)
    · refine .inl (htable (show Refers (s.setTable p _) q f from h) fun hmem => ?_)
      rw [not_or] at hnew
      exact (mem_install ((mem_install hmem).resolve_right hnew.2)).resolve_right hnew.1
  | @dup p fd g hp _ hg =>
    refine .inl (htable h fun hmem => ?_)
    rcases mem_install hmem with hmem | rfl
    · exact hmem
    · exact mem_of_file? hg
  | close hp _ => exact .inl (htable h mem_close)
  | @fork p hp _ =>
    obtain ⟨hq, h⟩ := h
    by_cases hqc : q = s.procs
    · subst hqc
      simp only [State.sysFork, Function.update_self] at h
      exact .inr (.inl ⟨p, rfl, hp, .inl (h.resolve_right fun hfile => by cases hfile)⟩)
    · simp only [State.sysFork, Function.update_of_ne hqc] at h
      exact .inl ⟨lt_of_le_of_ne (Nat.le_of_lt_succ hq) hqc, h⟩
  | @exit p hp huser =>
    obtain ⟨hq, h⟩ := h
    by_cases hqp : q = p
    · subst hqp
      simp only [State.sysExit, State.setTable, State.setActivity, Function.update_self] at h
      rcases h with h | h
      · obtain ⟨_, -, h⟩ := List.mem_map.mp h
        cases h
      · cases h
    · simp only [State.sysExit, State.setTable, State.setActivity,
        Function.update_of_ne hqp] at h
      exact .inl ⟨hq, h⟩
  | read len hp _ hf | write buf hp _ hf =>
    refine .inl (hcall h fun hfile => .inl ?_)
    rw [← hfile]
    exact mem_of_file? hf
  | get hp ha _ _ | put hp ha _ _ =>
    refine .inl (hcall (show Refers (s.setActivity _ _) q f from h) fun hfile => .inr ?_)
    rw [← hfile, ha]
    rfl
  | readDone hp ha | eof hp ha _ _ | writeDone hp ha =>
    refine .inl (hcall h fun hfile => ?_)
    cases hfile

/-- The ends that exist belong to the pipes that have been made. -/
def Made (s : State) : Prop :=
  ∀ q k, Refers s q (.readEnd k) ∨ Refers s q (.writeEnd k) → k < s.pipes

/-- Pipes are made but never taken away, so that their numbers are not used again. -/
theorem Step.pipes_le (hs : Step s e s') : s.pipes ≤ s'.pipes := by
  cases hs with
  | pipe _ _ => exact Nat.le_succ _
  | dup | close | fork | exit | read | write | get | put | readDone | eof | writeDone =>
    exact Nat.le_refl _

/-- No step makes a reference to a pipe that has not been made. -/
theorem Step.made (hs : Step s e s') (h : Made s) : Made s' := by
  intro q k hk
  have hend : ∀ f, f = .readEnd k ∨ f = .writeEnd k → Refers s' q f → k < s'.pipes := by
    intro f hf hr
    have hold : ∀ q', Refers s q' f → k < s'.pipes := by
      intro q' hr
      refine (h q' k ?_).trans_le hs.pipes_le
      rcases hf with rfl | rfl
      · exact .inl hr
      · exact .inr hr
    rcases hs.refers hr with hr | ⟨p, -, hr⟩ | ⟨⟨p, rfl⟩, hnew⟩
    · exact hold q hr
    · exact hold p hr
    · cases hs with
      | pipe _ _ =>
        rcases hf with rfl | rfl <;> rcases hnew with hnew | hnew <;> cases hnew <;>
          exact Nat.lt_succ_self _
  rcases hk with hk | hk
  · exact hend _ (.inl rfl) hk
  · exact hend _ (.inr rfl) hk

/-- At the start there are no references to pipes at all. -/
theorem made_boot : Made boot := by
  rintro q k (⟨-, h⟩ | ⟨-, h⟩) <;> simp [boot, Activity.file] at h

/-- An end of a pipe that has been made and that nobody refers to. -/
def Gone (s : State) (k : Nat) (f : FileRef) : Prop := k < s.pipes ∧ ∀ q, ¬ Refers s q f

/-- **What is gone does not come back**: a step makes references only from others, or to the
ends of a new pipe. -/
theorem Step.gone (hs : Step s e s') (hf : f = .readEnd k ∨ f = .writeEnd k) (h : Gone s k f) :
    Gone s' k f := by
  refine ⟨h.1.trans_le hs.pipes_le, fun q hr => ?_⟩
  rcases hs.refers hr with hr | ⟨p, -, hr⟩ | ⟨-, hnew⟩
  · exact h.2 q hr
  · exact h.2 p hr
  · have hk := h.1
    rcases hf with rfl | rfl <;> rcases hnew with hnew | hnew <;> cases hnew <;>
      exact absurd hk (lt_irrefl _)

/-! ## The bytes in a pipe -/

/-- The bytes written over two runs are those of the first and then those of the second. -/
theorem written_append (tr tr' : List Event) :
    written k (tr ++ tr') = written k tr ++ written k tr' :=
  List.filterMap_append ..

/-- The bytes read over two runs are those of the first and then those of the second. -/
theorem received_append (tr tr' : List Event) :
    received k (tr ++ tr') = received k tr ++ received k tr' :=
  List.filterMap_append ..

/-- A byte that is put counts as written to its own pipe only. -/
@[simp] theorem written_put (p k' : Nat) (b : UInt8) :
    written k [.put p k' b] = if k' = k then [b] else [] := by
  by_cases h : k' = k <;> simp [written, h]

/-- A byte that is got counts as read from its own pipe only. -/
@[simp] theorem received_get (p k' : Nat) (b : UInt8) :
    received k [.get p k' b] = if k' = k then [b] else [] := by
  by_cases h : k' = k <;> simp [received, h]

/-- The ring of a pipe holds what has been written and not been read. -/
structure Conveys (tr : List Event) (s : State) : Prop where
  made : Made s
  ring : ∀ k, ∃ q, (s.ring k).Represents q ∧ written k tr = received k tr ++ q
  unmade : ∀ k, s.pipes ≤ k → written k tr = [] ∧ received k tr = []

/-- At the start nothing has been written, and the ring of every pipe is empty. -/
theorem conveys_boot : Conveys [] boot :=
  ⟨made_boot, fun _ => ⟨[], PipeRingBuffer.new_represents, rfl⟩, fun _ _ => ⟨rfl, rfl⟩⟩

/-- A step that has nothing to do with the rings. -/
theorem Conveys.quiet (h : Conveys tr s) (hmade : Made s') (hring : s'.ring = s.ring)
    (hpipes : s'.pipes = s.pipes) (hw : ∀ k, written k [e] = []) (hr : ∀ k, received k [e] = []) :
    Conveys (tr ++ [e]) s' := by
  refine ⟨hmade, fun k => ?_, fun k hk => ?_⟩
  · rw [hring, written_append, received_append, hw, hr, List.append_nil, List.append_nil]
    exact h.ring k
  · rw [written_append, received_append, hw, hr, List.append_nil, List.append_nil]
    exact h.unmade k (hpipes ▸ hk)

/-- A step keeps what the ring of a pipe holds: a byte that is put or got is added at the back
or taken from the front. -/
theorem Step.conveys (hs : Step s e s') (h : Conveys tr s) : Conveys (tr ++ [e]) s' := by
  have hmade := hs.made h.made
  cases hs with
  | dup | close | fork | exit | read | write | readDone | eof | writeDone =>
    exact h.quiet hmade rfl rfl (fun _ => rfl) fun _ => rfl
  | pipe _ _ =>
    refine ⟨hmade, fun k => ?_, fun k hk => ?_⟩
    · rw [written_append, received_append]
      by_cases hk : k = s.pipes
      · subst hk
        obtain ⟨hw, hr⟩ := h.unmade s.pipes le_rfl
        rw [hw, hr]
        refine ⟨[], ?_, rfl⟩
        simp only [State.sysPipe, Function.update_self]
        exact PipeRingBuffer.new_represents
      · obtain ⟨q, hq, heq⟩ := h.ring k
        refine ⟨q, ?_, ?_⟩
        · simp only [State.sysPipe, Function.update_of_ne hk]
          exact hq
        · exact (List.append_nil _).trans (heq.trans (congrArg (· ++ q) (List.append_nil _).symm))
    · rw [written_append, received_append]
      obtain ⟨hw, hr⟩ := h.unmade k (Nat.le_of_succ_le hk)
      rw [hw, hr]
      exact ⟨rfl, rfl⟩
  | @get p k' left b r hp ha havail hread =>
    have hlt : k' < s.pipes := h.made p k' (.inl ⟨hp, .inr (by rw [ha]; rfl)⟩)
    refine ⟨hmade, fun k => ?_, fun k hk => ?_⟩
    · obtain ⟨q, hq, heq⟩ := h.ring k
      rw [written_append, received_append, received_get, show written k [.get p k' b] = [] from rfl,
        List.append_nil]
      by_cases hk : k' = k
      · subst hk
        cases q with
        | nil =>
          rw [hq.availableRead_eq] at havail
          exact absurd rfl havail
        | cons b' q =>
          obtain ⟨r', hr', hrep⟩ := hq.readByte
          rw [hread] at hr'
          cases hr'
          refine ⟨q, ?_, ?_⟩
          · simp only [State.setRing, Function.update_self]
            exact hrep
          · rw [if_pos rfl, heq, List.append_assoc]
            rfl
      · rw [if_neg hk, List.append_nil]
        refine ⟨q, ?_, heq⟩
        simp only [State.setRing, Function.update_of_ne (Ne.symm hk)]
        exact hq
    · have hk' : k' ≠ k := fun heq => absurd (heq ▸ hlt) (not_lt.mpr hk)
      rw [written_append, received_append, received_get, if_neg hk']
      obtain ⟨hw, hr⟩ := h.unmade k hk
      rw [hw, hr]
      exact ⟨rfl, rfl⟩
  | @put p k' b left r hp ha havail hwrite =>
    have hlt : k' < s.pipes := h.made p k' (.inr ⟨hp, .inr (by rw [ha]; rfl)⟩)
    refine ⟨hmade, fun k => ?_, fun k hk => ?_⟩
    · obtain ⟨q, hq, heq⟩ := h.ring k
      rw [written_append, received_append, written_put, show received k [.put p k' b] = [] from rfl,
        List.append_nil]
      by_cases hk : k' = k
      · subst hk
        rw [hq.availableWrite_eq] at havail
        obtain ⟨r', hr', hrep⟩ := hq.writeByte b (by omega)
        rw [hwrite] at hr'
        cases hr'
        refine ⟨q ++ [b], ?_, ?_⟩
        · simp only [State.setRing, Function.update_self]
          exact hrep
        · rw [if_pos rfl, heq, List.append_assoc]
      · rw [if_neg hk, List.append_nil]
        refine ⟨q, ?_, heq⟩
        simp only [State.setRing, Function.update_of_ne (Ne.symm hk)]
        exact hq
    · have hk' : k' ≠ k := fun heq => absurd (heq ▸ hlt) (not_lt.mpr hk)
      rw [written_append, received_append, written_put, if_neg hk']
      obtain ⟨hw, hr⟩ := h.unmade k hk
      rw [hw, hr]
      exact ⟨rfl, rfl⟩

/-- Over every run, the bytes written to a pipe are the bytes read followed by those in its ring. -/
theorem conveys_of_run (hrun : system.Run boot tr s) : Conveys tr s :=
  hrun.history conveys_boot fun _ _ _ _ h hs => hs.conveys h

/-- Nothing is written to a pipe without a write end, and nothing read from one without a read
end. -/
theorem Step.silent (hs : Step s e s') :
    (Gone s k (.writeEnd k) → written k [e] = []) ∧
      (Gone s k (.readEnd k) → received k [e] = []) := by
  cases hs with
  | pipe | dup | close | fork | exit | read | write | readDone | eof | writeDone =>
    exact ⟨fun _ => rfl, fun _ => rfl⟩
  | @get p k' left b r hp ha _ _ =>
    refine ⟨fun _ => rfl, fun hgone => ?_⟩
    rw [received_get, if_neg]
    rintro rfl
    exact hgone.2 p ⟨hp, .inr (by rw [ha]; rfl)⟩
  | @put p k' b left r hp ha _ _ =>
    refine ⟨fun hgone => ?_, fun _ => rfl⟩
    rw [written_put, if_neg]
    rintro rfl
    exact hgone.2 p ⟨hp, .inr (by rw [ha]; rfl)⟩

/-- What is gone stays gone, and no byte passes it. -/
theorem run_gone (hrun : system.Run s tr s') :
    (Gone s k (.writeEnd k) → Gone s' k (.writeEnd k) ∧ written k tr = []) ∧
      (Gone s k (.readEnd k) → Gone s' k (.readEnd k) ∧ received k tr = []) := by
  refine hrun.history (I := fun tr s' => (Gone s k (.writeEnd k) →
    Gone s' k (.writeEnd k) ∧ written k tr = []) ∧ (Gone s k (.readEnd k) →
    Gone s' k (.readEnd k) ∧ received k tr = [])) ⟨fun h => ⟨h, rfl⟩, fun h => ⟨h, rfl⟩⟩ ?_
  intro tr t e u ih hs
  refine ⟨fun h => ?_, fun h => ?_⟩
  · obtain ⟨hgone, hw⟩ := ih.1 h
    refine ⟨Step.gone hs (.inr rfl) hgone, ?_⟩
    rw [written_append, hw, (Step.silent hs).1 hgone]
    rfl
  · obtain ⟨hgone, hr⟩ := ih.2 h
    refine ⟨Step.gone hs (.inl rfl) hgone, ?_⟩
    rw [received_append, hr, (Step.silent hs).2 hgone]
    rfl

/-! ## The end of file -/

/-- A pipe is empty if all that has been written has been read. -/
theorem Conveys.availableRead_eq_zero_iff (h : Conveys tr s) (k : Nat) :
    (s.ring k).availableRead = 0 ↔ received k tr = written k tr := by
  obtain ⟨q, hq, heq⟩ := h.ring k
  rw [hq.availableRead_eq, heq, List.length_eq_zero_iff]
  constructor
  · rintro rfl
    exact (List.append_nil _).symm
  · intro hnil
    exact List.append_cancel_left (hnil.symm.trans (List.append_nil _).symm)

/-- **A reader sees the end of file when there is nothing more to come.** After any interleaving of
the system calls of any processes, for every pipe:
* what its readers have got is the beginning of what has been written, in order;
* a reader that waits for a byte can take the next one exactly if one is left, and returns with the
  end of file exactly if none is left and nobody has a write end, neither in a descriptor table nor
  in a `write`;
* after an end of file nothing is ever written to the pipe or read from it. -/
theorem run_eof (hrun : system.Run boot tr s) (k : Nat) :
    received k tr <+: written k tr ∧
    (∀ p left, p < s.procs → s.activity p = .reading k (left + 1) →
      ((∃ b s', system.step s (.get p k b) s') ↔ received k tr ≠ written k tr) ∧
      ((∃ s', system.step s (.eof p k) s') ↔
        received k tr = written k tr ∧ ∀ q, ¬ Refers s q (.writeEnd k))) ∧
    ∀ p s', system.step s (.eof p k) s' → ∀ tr' s'', system.Run s' tr' s'' →
      written k tr' = [] ∧ received k tr' = [] := by
  have hconv := conveys_of_run hrun
  have hempty := hconv.availableRead_eq_zero_iff k
  obtain ⟨q, hq, heq⟩ := hconv.ring k
  refine ⟨⟨q, heq.symm⟩, fun p left hp ha => ⟨⟨?_, fun hne => ?_⟩, ⟨?_, fun hend => ?_⟩⟩, ?_⟩
  · rintro ⟨b, s', hs⟩
    cases hs with
    | get _ _ havail _ => exact fun heq => havail (hempty.mpr heq)
  · cases q with
    | nil => exact absurd (heq.trans (List.append_nil _)).symm hne
    | cons b q =>
      obtain ⟨r, hr, -⟩ := hq.readByte
      exact ⟨b, _, .get hp ha (fun hzero => hne (hempty.mp hzero)) hr⟩
  · rintro ⟨s', hs⟩
    cases hs with
    | eof _ _ havail hclosed =>
      exact ⟨hempty.mp havail, strong_eq_zero_iff.mp (of_decide_eq_true hclosed)⟩
  · exact ⟨_, .eof hp ha (hempty.mpr hend.1) (decide_eq_true (strong_eq_zero_iff.mpr hend.2))⟩
  · intro p s' hs tr' s'' hrun'
    have hs' := hs
    cases hs with
    | eof hp ha havail hclosed =>
      have hlt : k < s.pipes := hconv.made p k (.inl ⟨hp, .inr (by rw [ha]; rfl)⟩)
      have hgone : Gone s k (.writeEnd k) :=
        ⟨hlt, strong_eq_zero_iff.mp (of_decide_eq_true hclosed)⟩
      have hw := ((run_gone hrun').1 (Step.gone hs' (.inr rfl) hgone)).2
      refine ⟨hw, ?_⟩
      -- the bytes of the whole run: all had been read before
      obtain ⟨q', -, heq'⟩ := (conveys_of_run ((hrun.snoc hs').append hrun')).ring k
      rw [written_append, written_append, received_append, received_append, hw,
        ← hempty.mp havail] at heq'
      simp only [written, received, List.filterMap_cons, List.filterMap_nil, List.append_nil,
        List.append_assoc, List.self_eq_append_right, List.append_eq_nil_iff] at heq'
      exact heq'.1

/-- The first process has made a pipe and closed one of the ends. -/
def halfPipe (fd : Nat) : State :=
  (boot.sysPipe 0).setTable 0 (((boot.sysPipe 0).fdTable 0).close fd)

/-- The first process makes a pipe and closes a descriptor, the two steps by their code. -/
theorem run_halfPipe (fd : Nat) : system.Run boot [.pipe 0 0, .close 0 fd] (halfPipe fd) := by
  have hpipe : system.step boot (.pipe 0 0) (boot.sysPipe 0) := Step.pipe Nat.one_pos rfl
  have hclose : system.step (boot.sysPipe 0) (.close 0 fd) (halfPipe fd) := .close Nat.one_pos rfl
  exact .snoc (.snoc (.nil boot) hpipe) hclose

/-- The first process writes a byte into a pipe, closes the write end and reads. It gets the byte
and sees the end of file. -/
theorem run_eof_alone : ∃ tr s s', system.Run boot tr s ∧ written 0 tr = [7] ∧
    received 0 tr = [7] ∧ s.activity 0 = .reading 0 15 ∧ system.step s (.eof 0 0) s' := by
  obtain ⟨full, hput, hfull⟩ := PipeRingBuffer.new_represents.writeByte 7 (by decide)
  obtain ⟨empty, hget, -⟩ := hfull.readByte
  have hroom : PipeRingBuffer.new.availableWrite ≠ 0 := by
    rw [PipeRingBuffer.new_represents.availableWrite_eq]
    decide
  have hbyte : full.availableRead ≠ 0 := by
    rw [hfull.availableRead_eq]
    decide
  have h₁ := (System.Run.nil (S := system) boot).snoc (.pipe (p := 0) Nat.one_pos rfl)
  have h₂ := h₁.snoc (show system.step _ (.write 0 4 [7]) _ from .write [7] Nat.one_pos rfl rfl)
  have h₃ := h₂.snoc (.put Nat.one_pos rfl hroom hput)
  have h₄ := h₃.snoc (.writeDone Nat.one_pos rfl)
  have h₅ := h₄.snoc (show system.step _ (.close 0 4) _ from .close Nat.one_pos rfl)
  have h₆ := h₅.snoc (show system.step _ (.read 0 3 16) _ from .read 16 Nat.one_pos rfl rfl)
  have h₇ := h₆.snoc (.get Nat.one_pos rfl hbyte hget)
  obtain ⟨s', hs⟩ := (((run_eof h₇ 0).2.1 0 14 Nat.one_pos rfl).2).mpr
    ⟨rfl, strong_eq_zero_iff.mp rfl⟩
  exact ⟨_, _, s', h₇, rfl, rfl, rfl, hs⟩

/-! ## A pipe without readers -/

/-- A step of another process leaves a write as it is; a step of its own puts a byte or ends it. -/
theorem Step.writing (hs : Step s e s') {left : List UInt8} (ha : s.activity p = .writing k left)
    (hp : p < s.procs) :
    s'.activity p = .writing k left ∨
      (∃ b left', left = b :: left' ∧ s'.activity p = .writing k left' ∧ e = .put p k b) ∨
      left = [] := by
  -- what another process does
  have hother : ∀ {q a}, s.activity q ≠ .writing k left →
      Function.update s.activity q a p = .writing k left := by
    intro q a hq
    rw [Function.update_of_ne, ha]
    rintro rfl
    exact hq ha
  cases hs with
  | pipe _ _ | dup _ _ _ | close _ _ => exact .inl ha
  | fork _ _ =>
    left
    simp only [State.sysFork]
    rw [Function.update_of_ne hp.ne, ha]
  | exit _ huser | read _ _ huser _ | write _ _ huser _ =>
    refine .inl (hother ?_)
    rw [huser]
    exact nofun
  | get _ ha' _ _ | readDone _ ha' | eof _ ha' _ _ =>
    refine .inl (hother ?_)
    rw [ha']
    exact nofun
  | @put q k' b left' r _ ha' _ _ =>
    by_cases hq : q = p
    · subst hq
      rw [ha] at ha'
      cases ha'
      exact .inr (.inl ⟨b, left', rfl, Function.update_self .., rfl⟩)
    · exact .inl ((Function.update_of_ne (Ne.symm hq) ..).trans ha)
  | @writeDone q k' _ ha' =>
    by_cases hq : q = p
    · subst hq
      rw [ha] at ha'
      cases ha'
      exact .inr (.inr rfl)
    · exact .inl ((Function.update_of_ne (Ne.symm hq) ..).trans ha)

/-- Processes are added but never taken away, so that their numbers are not used again. -/
theorem Step.procs_le (hs : Step s e s') : s.procs ≤ s'.procs := by
  cases hs with
  | fork _ _ => exact Nat.le_succ _
  | pipe | dup | close | exit | read | write | get | put | readDone | eof | writeDone =>
    exact Nat.le_refl _

/-- **A pipe without readers swallows one buffer and no more.** Once nobody has a read end, nothing
is read from the pipe in any continuation, at most `RING_BUFFER_SIZE` bytes are ever written beyond
what has been read, and a `write` of more bytes than there is room for never returns. -/
theorem run_no_reader (hrun : system.Run boot tr s) (hk : k < s.pipes)
    (hnone : ∀ q, ¬ Refers s q (.readEnd k)) :
    (∀ tr' s', system.Run s tr' s' → received k tr' = [] ∧
      (written k (tr ++ tr')).length ≤ (received k tr).length + ringBufferSize) ∧
    ∀ p left, p < s.procs → s.activity p = .writing k left →
      (received k tr).length + ringBufferSize < (written k tr).length + left.length →
      ∀ tr' s', system.Run s tr' s' → ∃ left', s'.activity p = .writing k left' ∧ left' ≠ [] := by
  have hbound : ∀ tr' s', system.Run s tr' s' → received k tr' = [] ∧
      (written k (tr ++ tr')).length ≤ (received k tr).length + ringBufferSize := by
    intro tr' s' hrun'
    have hr := ((run_gone hrun').2 ⟨hk, hnone⟩).2
    obtain ⟨q, hq, heq⟩ := (conveys_of_run (hrun.append hrun')).ring k
    refine ⟨hr, ?_⟩
    rw [heq, received_append, hr, List.append_nil, List.length_append]
    exact Nat.add_le_add_left hq.length_le _
  refine ⟨hbound, fun p left hp ha hlong tr' s' hrun' => ?_⟩
  -- what is left of the write is the whole of it less what has been written to the pipe since
  have hleft : p < s'.procs ∧ ∃ left', s'.activity p = .writing k left' ∧ left' ≠ [] ∧
      left.length ≤ left'.length + (written k tr').length := by
    have hpos : ∀ tr' s' (left' : List UInt8), system.Run s tr' s' →
        left.length ≤ left'.length + (written k tr').length → left' ≠ [] := by
      rintro tr' s' left' hrun' hle rfl
      have hle' := (hbound tr' s' hrun').2
      rw [written_append, List.length_append] at hle'
      rw [List.length_nil] at hle
      omega
    suffices h : system.Run s tr' s' ∧ p < s'.procs ∧ ∃ left', s'.activity p = .writing k left' ∧
        left.length ≤ left'.length + (written k tr').length by
      obtain ⟨-, hp', left', ha', hle⟩ := h
      exact ⟨hp', left', ha', hpos tr' s' left' hrun' hle, hle⟩
    refine hrun'.history (I := fun tr' s' => system.Run s tr' s' ∧ p < s'.procs ∧
      ∃ left', s'.activity p = .writing k left' ∧
        left.length ≤ left'.length + (written k tr').length)
      ⟨.nil s, hp, left, ha, Nat.le_add_right _ _⟩ ?_
    rintro tr' t e u ⟨hrun', hp', left', ha', hle⟩ hs
    refine ⟨hrun'.snoc hs, hp'.trans_le (Step.procs_le hs), ?_⟩
    rcases Step.writing hs ha' hp' with hsame | ⟨b, left'', rfl, hput, rfl⟩ | rfl
    · refine ⟨left', hsame, ?_⟩
      rw [written_append, List.length_append]
      omega
    · refine ⟨left'', hput, ?_⟩
      rw [written_append, List.length_append, written_put, if_pos rfl, List.length_singleton]
      rw [List.length_cons] at hle
      omega
    · exact absurd rfl (hpos tr' t [] hrun' hle)
  obtain ⟨-, left', ha', hne, -⟩ := hleft
  exact ⟨left', ha', hne⟩

/-- The first process makes a pipe, closes its read end and writes a byte too much. -/
theorem run_no_reader_alone : ∃ tr s, system.Run boot tr s ∧
    ∀ tr' s', system.Run s tr' s' → ∃ left', s'.activity 0 = .writing 0 left' ∧ left' ≠ [] := by
  let buf : List UInt8 := List.replicate 2049 0
  have hwrite : system.step (halfPipe 3) (.write 0 4 buf)
      ((halfPipe 3).setActivity 0 (.writing 0 buf)) := .write buf Nat.one_pos rfl rfl
  have hrun := (run_halfPipe 3).snoc hwrite
  have hnone : ∀ q, ¬ Refers ((halfPipe 3).setActivity 0 (.writing 0 buf)) q (.readEnd 0) :=
    strong_eq_zero_iff.mp rfl
  refine ⟨_, _, hrun, (run_no_reader hrun Nat.one_pos hnone).2 0 buf Nat.one_pos rfl ?_⟩
  rw [List.length_replicate]
  exact Nat.lt_succ_self _

end TinyOS.Pipes
