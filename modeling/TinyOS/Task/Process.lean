import TinyOS.Task.Pid

/-!
# The life of a process

The owners of a process control block in `phase_6_shell`: the children lists, the ready queue,
`Processor.current`, `INITPROC`, and the local `task` of every syscall that is on a kernel stack.
A control block is dropped, and its pid recycled, when none of them refers to it any more. `refs`
lists the references and `strong` counts them.

`fork`, `waitpid`, `schedule` and `reparent_to_init` do what their comments require; what they
build on (`sys_exit`, `sys_yield`, `run_tasks`, the task manager) is as in the source. `sys_exit`
leaves through `schedule`, which switches away from the kernel stack for good, with its `task` still
on it. So the last reference to a process that exits is never released (`reaped_never_dropped`).

Left out: memory and files of a process, and `parent`, which is a weak reference.
-/

namespace TinyOS.Task

open Transition

/-- `enum TaskStatus` of `phase_6_shell`, the states a control block can be in. -/
inductive TaskStatus where
  | ready
  | running
  | blocked
  | zombie
  deriving DecidableEq

/-- The functions that keep `current_task().unwrap()` in a local while they run. -/
inductive Syscall where
  | sysRead
  | sysWrite
  | sysPipe
  | sysDup
  | sysClose
  | sysFork
  | sysExec
  | sysWaitpid
  | sysYield
  | sysExit
  deriving DecidableEq

/-- The kernel. A control block is a number, and the fields of the control blocks are functions of
it. The stack of a process has its last frame first. -/
structure Kernel where
  /-- The control blocks that have not been dropped. -/
  alive : List Nat
  next : Nat
  pid : Nat → UInt64
  status : Nat → TaskStatus
  children : Nat → List Nat
  exitCode : Nat → Int32
  stack : Nat → List Syscall
  readyQueue : List Nat
  current : Option Nat
  initproc : Option Nat
  handles : Handles

namespace Kernel

/-- The strong references, one entry for each place that has an `Arc` of a control block. -/
def refs (s : Kernel) : List Nat :=
  s.readyQueue ++ s.current.toList ++ s.initproc.toList ++ s.alive.flatMap s.children ++
    s.alive.flatMap fun p => (s.stack p).map fun _ => p

/-- `Arc::strong_count` of a control block, counted over these places: when it is zero, the
block is dropped. -/
def strong (s : Kernel) (p : Nat) : Nat := s.refs.count p

/-- `add_task`: an `Arc` of the process goes to the end of the ready queue. -/
def addTask (s : Kernel) (p : Nat) : Kernel := { s with readyQueue := s.readyQueue ++ [p] }

/-- `schedule`, up to the switch, if `p` is the current task. -/
def schedule (s : Kernel) (p : Nat) : Kernel :=
  let s := { s with current := none }
  match s.status p with
  | .zombie => s
  | .blocked => s.addTask p
  | _ => { s with status := Function.update s.status p .ready }.addTask p

/-- Move every child of `dying` into initproc's children list, behind those it has already. -/
def reparentToInit (s : Kernel) (dying : Nat) : Kernel :=
  match s.initproc with
  | none => s
  | some i =>
    let drained := Function.update s.children dying []
    { s with children := Function.update drained i (drained i ++ s.children dying) }

/-- `sys_exit` before it calls `schedule`: the process is a zombie with its exit code, and its
children go to initproc. -/
def sysExit (s : Kernel) (p : Nat) (exitCode : Int32) : Kernel :=
  { s with
    status := Function.update s.status p .zombie
    exitCode := Function.update s.exitCode p exitCode }.reparentToInit p

/-- `sys_yield` up to the switch: its frame on the kernel stack keeps an `Arc`, and the process
goes to the end of the queue. -/
def sysYield (s : Kernel) (p : Nat) : Kernel :=
  { s with
    stack := Function.update s.stack p (.sysYield :: s.stack p)
    status := Function.update s.status p .ready }.schedule p

/-- `sys_fork` by `p`, with the pid of the child and the handles after its allocation. -/
def sysFork (s : Kernel) (p : Nat) (pid : UInt64) (handles : Handles) : Kernel :=
  { s with
    alive := s.next :: s.alive
    next := s.next + 1
    pid := Function.update s.pid s.next pid
    status := Function.update s.status s.next .ready
    children :=
      Function.update (Function.update s.children s.next []) p (s.children p ++ [s.next])
    exitCode := Function.update s.exitCode s.next 0
    stack := Function.update s.stack s.next []
    handles := handles }.addTask s.next

/-- `sys_waitpid` by `p`, if it finds the zombie `c`: the child is taken out of its parent's
list. -/
def sysWaitpid (s : Kernel) (p c : Nat) : Kernel :=
  { s with children := Function.update s.children p ((s.children p).erase c) }

/-- The control block is dropped, with its pid and its references to the children. -/
def drop (s : Kernel) (p : Nat) (handles : Handles) : Kernel :=
  { s with
    alive := s.alive.erase p
    children := Function.update s.children p []
    handles := handles }

end Kernel

/-- What happens in the kernel: a switch, a system call that starts or returns, what a system
call does, and the drop of a control block. -/
inductive Event where
  | runTasks (p : Nat)
  | enter (p : Nat) (f : Syscall)
  | leave (p : Nat)
  | yield (p : Nat)
  | fork (p c : Nat)
  | exit (p : Nat) (exitCode : Int32)
  | schedule (p : Nat)
  | waitpid (p c : Nat)
  | drop (p : Nat)
  deriving DecidableEq

/-- What can happen, by the process that runs; a control block is dropped when its last `Arc` is
gone. -/
inductive Step (s : Kernel) : Event → Kernel → Prop where
  /-- A round of `run_tasks`: its local `task` is moved into `PROCESSOR`. -/
  | runTasks {p : Nat} {queue : List Nat} (hidle : s.current = none)
      (hqueue : s.readyQueue = p :: queue) :
      Step s (.runTasks p) { s with
        readyQueue := queue
        status := Function.update s.status p .running
        current := some p }
  /-- A syscall from user mode: `let task = current_task().unwrap()`. -/
  | enter {p : Nat} (f : Syscall) (hcur : s.current = some p) (huser : s.stack p = [])
      (hf : f ≠ .sysYield) :
      Step s (.enter p f) { s with stack := Function.update s.stack p [f] }
  /-- A function returns. `sys_exit` does not. -/
  | leave {p : Nat} {f : Syscall} {frames : List Syscall} (hcur : s.current = some p)
      (hstack : s.stack p = f :: frames) (hf : f ≠ .sysExit) :
      Step s (.leave p) { s with stack := Function.update s.stack p frames }
  /-- `sys_yield`, from user mode or from a `read` or `write` that has to wait. -/
  | yield {p : Nat} (hcur : s.current = some p) (hyield : .sysYield ∉ s.stack p)
      (hexit : .sysExit ∉ s.stack p) : Step s (.yield p) (s.sysYield p)
  | fork {p : Nat} {pid : UInt64} {handles : Handles} (hcur : s.current = some p)
      (hstack : s.stack p = [.sysFork]) (halloc : s.handles.Step (.pidAlloc pid) handles) :
      Step s (.fork p s.next) (s.sysFork p pid handles)
  | exit {p : Nat} (exitCode : Int32) (hcur : s.current = some p) (hstack : s.stack p = [.sysExit])
      (hstatus : s.status p ≠ .zombie) : Step s (.exit p exitCode) (s.sysExit p exitCode)
  /-- The call of `schedule` in `sys_exit`. -/
  | schedule {p : Nat} (hcur : s.current = some p) (hstack : s.stack p = [.sysExit])
      (hstatus : s.status p = .zombie) : Step s (.schedule p) (s.schedule p)
  /-- The caller need not be the current task here, so it may be earlier than the last switch. -/
  | waitpid {p c : Nat} (hstack : s.stack p = [.sysWaitpid]) (hc : c ∈ s.children p)
      (hstatus : s.status c = .zombie) : Step s (.waitpid p c) (s.sysWaitpid p c)
  | drop {p : Nat} {handles : Handles} (halive : p ∈ s.alive) (hstrong : s.strong p = 0)
      (hdrop : s.handles.Step (.drop (s.pid p)) handles) : Step s (.drop p) (s.drop p handles)

/-- The first process in the ready queue, before or after it is installed as `INITPROC`. -/
def boot (initproc : Option Nat) : Kernel where
  alive := [0]
  next := 1
  pid _ := 0
  status _ := .ready
  children _ := []
  exitCode _ := 0
  stack _ := []
  readyQueue := [0]
  current := none
  initproc := initproc
  handles := ⟨⟨1, []⟩, [0], by decide⟩

/-- The kernel from the first process on, with `INITPROC` installed before it runs or not. -/
def processes : System Kernel Event where
  init s := s = boot none ∨ s = boot (some 0)
  step := Step

namespace Kernel

/-- `sys_yield` puts the process at the end of the queue. -/
theorem sysYield_eq (s : Kernel) (p : Nat) : s.sysYield p =
    { s with
      stack := Function.update s.stack p (.sysYield :: s.stack p)
      status := Function.update s.status p .ready
      current := none
      readyQueue := s.readyQueue ++ [p] } := by
  rw [sysYield, schedule]
  dsimp only
  rw [Function.update_self, Function.update_idem]
  rfl

/-- A zombie is not put into the queue: `schedule` only takes it off the processor. -/
theorem schedule_eq {s : Kernel} {p : Nat} (h : s.status p = .zombie) :
    s.schedule p = { s with current := none } := by
  rw [schedule]
  dsimp only
  rw [h]

end Kernel

/-! ## The invariant -/

/-- The children lists: a process is in at most one of them and at most once, and initproc is in
none. -/
structure Family (alive : List Nat) (children : Nat → List Nat) (initproc : Option Nat) : Prop where
  mem : ∀ q c, c ∈ children q → q ∈ alive ∧ c ∈ alive ∧ initproc ≠ some c
  nodup : ∀ q, (children q).Nodup
  parent : ∀ q q' c, c ∈ children q → c ∈ children q' → q = q'

/-- The current task and the ready queue: a process is there at most once, and a zombie is not in
the queue. A zombie is at the end of `sys_exit`. -/
structure Scheduled (alive : List Nat) (status : Nat → TaskStatus) (stack : Nat → List Syscall)
    (readyQueue : List Nat) (current : Option Nat) : Prop where
  mem : ∀ p ∈ current.toList ++ readyQueue, p ∈ alive
  nodup : (current.toList ++ readyQueue).Nodup
  zombie : ∀ p, status p = .zombie → p ∈ alive ∧ stack p = [.sysExit] ∧ p ∉ readyQueue

/-- The live handles are those of the control blocks, one for each and with its pid. -/
structure Pids (alive : List Nat) (next : Nat) (pid : Nat → UInt64) (handles : Handles) :
    Prop where
  compact : handles.Compact
  perm : (alive.map pid).Perm handles.live
  lt : ∀ p ∈ alive, p < next

/-- The three parts of the invariant, and that initproc is the first process, if it is installed. -/
structure Inv (s : Kernel) : Prop where
  family : Family s.alive s.children s.initproc
  scheduled : Scheduled s.alive s.status s.stack s.readyQueue s.current
  pids : Pids s.alive s.next s.pid s.handles
  initproc : ∀ p, s.initproc = some p → p ∈ s.alive

variable {s s' : Kernel} {e : Event} {p q c : Nat}

/-- The control blocks are distinct, as their pids are. -/
theorem Pids.nodup_alive {alive : List Nat} {next : Nat} {pid : Nat → UInt64} {handles : Handles}
    (h : Pids alive next pid handles) : alive.Nodup := by
  have hnodup : handles.live.Nodup := List.Nodup.of_append_left h.compact.nodup
  exact .of_map _ (h.perm.nodup_iff.mpr hnodup)

/-! ## Counting -/

/-- Every frame on the stack of a process is a reference to it. -/
theorem count_stacks {alive : List Nat} (stack : Nat → List Syscall) (hnodup : alive.Nodup)
    (hp : p ∈ alive) :
    (alive.flatMap fun q => (stack q).map fun _ => q).count p = (stack p).length := by
  induction alive with
  | nil => cases hp
  | cons q alive ih =>
    rw [List.nodup_cons] at hnodup
    rw [List.flatMap_cons, List.count_append]
    by_cases hq : p = q
    · subst hq
      have hrest : (alive.flatMap fun q => (stack q).map fun _ => q).count p = 0 := by
        rw [List.count_eq_zero]
        intro hmem
        obtain ⟨q, hq, hmap⟩ := List.mem_flatMap.mp hmem
        obtain ⟨_, -, rfl⟩ := List.mem_map.mp hmap
        exact hnodup.1 hq
      rw [hrest, List.map_const', List.count_replicate_self, Nat.add_zero]
    · have hp' : p ∈ alive := (List.mem_cons.mp hp).resolve_left hq
      rw [List.map_const', List.count_replicate, if_neg (by simpa using Ne.symm hq), Nat.zero_add]
      exact ih hnodup.2 hp'

/-- The references to a process that nobody but its stack and the processor refers to. -/
theorem strong_eq (hnodup : s.alive.Nodup) (hp : p ∈ s.alive) (hready : p ∉ s.readyQueue)
    (hinit : s.initproc ≠ some p) (hchild : ∀ q, p ∉ s.children q) :
    s.strong p = (if s.current = some p then 1 else 0) + (s.stack p).length := by
  have hfamily : p ∉ s.alive.flatMap s.children := by
    intro hmem
    obtain ⟨q, -, hq⟩ := List.mem_flatMap.mp hmem
    exact hchild q hq
  have hcurrent : s.current.toList.count p = if s.current = some p then 1 else 0 := by
    cases s.current with
    | none => rfl
    | some c => by_cases hc : c = p <;> simp [hc]
  have hinit' : p ∉ s.initproc.toList := by
    rw [Option.mem_toList]
    exact hinit
  rw [Kernel.strong, Kernel.refs]
  simp only [List.count_append]
  rw [List.count_eq_zero.mpr hready, List.count_eq_zero.mpr hinit',
    List.count_eq_zero.mpr hfamily, count_stacks s.stack hnodup hp, hcurrent]
  omega

/-- A control block without references is in no queue, in no children list and on no stack. -/
theorem not_mem_of_strong_eq_zero (hp : p ∈ s.alive) (h : s.strong p = 0) :
    p ∉ s.readyQueue ∧ s.current ≠ some p ∧ s.initproc ≠ some p ∧
      (∀ q ∈ s.alive, p ∉ s.children q) ∧ s.stack p = [] := by
  have hnot := List.count_eq_zero.mp h
  simp only [Kernel.refs, List.mem_append, not_or, Option.mem_toList,
    List.mem_flatMap, not_exists, not_and] at hnot
  obtain ⟨⟨⟨⟨hready, hcurrent⟩, hinit⟩, hchild⟩, hstack⟩ := hnot
  refine ⟨hready, hcurrent, hinit, hchild, ?_⟩
  cases hframes : s.stack p with
  | nil => rfl
  | cons f frames => exact absurd (by rw [hframes]; simp) (hstack p hp)

/-! ## Steps of the parts -/

namespace Family

variable {alive : List Nat} {children : Nat → List Nat} {initproc : Option Nat}

/-- References to children may be released: the lists that are left are those of a family. -/
theorem release (h : Family alive children initproc) {l : List Nat}
    (hl : l.Sublist (children p)) : Family alive (Function.update children p l) initproc := by
  have hsub : ∀ q, (Function.update children p l q).Sublist (children q) :=
    (Function.forall_update_iff children fun q l => l.Sublist (children q)).mpr
      ⟨hl, fun q _ => List.Sublist.refl _⟩
  refine ⟨fun q c hc => ?_, fun q => ?_, fun q q' c hc hc' => ?_⟩
  · exact h.mem q c ((hsub q).subset hc)
  · exact (h.nodup q).sublist (hsub q)
  · exact h.parent q q' c ((hsub q).subset hc) ((hsub q').subset hc')

/-- A child that belongs to nobody is given to a process. -/
theorem append (h : Family alive children initproc) (hp : p ∈ alive) (orphans : List Nat)
    (hmem : ∀ c ∈ orphans, c ∈ alive ∧ initproc ≠ some c ∧ ∀ q, c ∉ children q)
    (hnodup : orphans.Nodup) :
    Family alive (Function.update children p (children p ++ orphans)) initproc := by
  -- who has a child of the new table had it before, or is `p` and got it now
  have hcases : ∀ q c, c ∈ Function.update children p (children p ++ orphans) q →
      c ∈ children q ∨ q = p ∧ c ∈ orphans := by
    intro q c hc
    by_cases hq : q = p
    · subst hq
      rw [Function.update_self, List.mem_append] at hc
      exact hc.imp id fun hc => ⟨rfl, hc⟩
    · rw [Function.update_of_ne hq] at hc
      exact .inl hc
  refine ⟨fun q c hc => ?_, fun q => ?_, fun q q' c hc hc' => ?_⟩
  · obtain hold | ⟨rfl, hnew⟩ := hcases q c hc
    · exact h.mem q c hold
    · exact ⟨hp, (hmem c hnew).1, (hmem c hnew).2.1⟩
  · by_cases hq : q = p
    · subst hq
      rw [Function.update_self]
      exact (h.nodup q).append hnodup fun c hc hc' => (hmem c hc').2.2 q hc
    · rw [Function.update_of_ne hq]
      exact h.nodup q
  · obtain hold | ⟨rfl, hnew⟩ := hcases q c hc
    · obtain hold' | ⟨rfl, hnew'⟩ := hcases q' c hc'
      · exact h.parent q q' c hold hold'
      · exact absurd hold ((hmem c hnew').2.2 q)
    · obtain hold' | ⟨rfl, hnew'⟩ := hcases q' c hc'
      · exact absurd hold' ((hmem c hnew).2.2 q')
      · rfl

/-- A process gives up its children, and nobody else has them. -/
theorem drain (h : Family alive children initproc) (p : Nat) :
    Family alive (Function.update children p []) initproc ∧
      ∀ c ∈ children p, ∀ q, c ∉ Function.update children p [] q := by
  refine ⟨h.release (List.nil_sublist _), fun c hc => ?_⟩
  refine (Function.forall_update_iff children fun _ l => c ∉ l).mpr ⟨List.not_mem_nil, ?_⟩
  intro q hq hc'
  exact hq (h.parent q p c hc' hc)

/-- A control block more, which is nobody's child, changes nothing for the others. -/
theorem cons (h : Family alive children initproc) (c : Nat) :
    Family (c :: alive) children initproc where
  mem q d hd := by
    obtain ⟨hq, hd, hinit⟩ := h.mem q d hd
    exact ⟨List.mem_cons_of_mem _ hq, List.mem_cons_of_mem _ hd, hinit⟩
  nodup := h.nodup
  parent := h.parent

/-- A control block less. It is nobody's child and has no children. -/
theorem erase (h : Family alive children initproc) (hchild : ∀ q, p ∉ children q)
    (hchildren : children p = []) : Family (alive.erase p) children initproc where
  mem q c hc := by
    obtain ⟨hq, hc', hinit⟩ := h.mem q c hc
    have hqp : q ≠ p := by
      rintro rfl
      rw [hchildren] at hc
      cases hc
    have hcp : c ≠ p := by
      rintro rfl
      exact hchild q hc
    exact ⟨(List.mem_erase_of_ne hqp).mpr hq, (List.mem_erase_of_ne hcp).mpr hc', hinit⟩
  nodup := h.nodup
  parent := h.parent

end Family

namespace Scheduled

variable {alive readyQueue : List Nat} {status : Nat → TaskStatus} {stack : Nat → List Syscall}
  {current : Option Nat}

/-- The current task is not in the ready queue, so that `run_tasks` does not switch to it a
second time. -/
theorem not_mem_of_current (h : Scheduled alive status stack readyQueue (some p)) :
    p ∉ readyQueue := (List.nodup_cons.mp h.nodup).1

/-- Only a process that is in `sys_exit` can be a zombie. -/
theorem not_zombie (h : Scheduled alive status stack readyQueue current)
    (hp : stack p ≠ [.sysExit]) : status p ≠ .zombie := fun hz => hp (h.zombie p hz).2.1

/-- The stack of a process that is no zombie may change. -/
theorem update_stack (h : Scheduled alive status stack readyQueue current)
    (hp : status p ≠ .zombie) (frames : List Syscall) :
    Scheduled alive status (Function.update stack p frames) readyQueue current where
  mem := h.mem
  nodup := h.nodup
  zombie x hx := by
    have hne : x ≠ p := by
      rintro rfl
      exact hp hx
    rw [Function.update_of_ne hne]
    exact h.zombie x hx

/-- The status may change to any other than `zombie`: nothing is said about the others. -/
theorem update_status (h : Scheduled alive status stack readyQueue current) (p : Nat)
    (st : TaskStatus) (hst : st ≠ .zombie) :
    Scheduled alive (Function.update status p st) stack readyQueue current where
  mem := h.mem
  nodup := h.nodup
  zombie := (Function.forall_update_iff status fun x st =>
    st = .zombie → x ∈ alive ∧ stack x = [.sysExit] ∧ x ∉ readyQueue).mpr
      ⟨fun hp => absurd hp hst, fun x _ => h.zombie x⟩

/-- A process is put at the end of the queue. -/
theorem addTask (h : Scheduled alive status stack readyQueue current) (hp : p ∈ alive)
    (hnot : p ∉ current.toList ++ readyQueue) (hstatus : status p ≠ .zombie) :
    Scheduled alive status stack (readyQueue ++ [p]) current where
  mem x hx := by
    rw [← List.append_assoc, List.mem_append, List.mem_singleton] at hx
    obtain hx | rfl := hx
    · exact h.mem x hx
    · exact hp
  nodup := by
    rw [← List.append_assoc]
    exact h.nodup.append (List.nodup_singleton p) (List.disjoint_singleton.mpr hnot)
  zombie x hx := by
    obtain ⟨halive, hstack, hready⟩ := h.zombie x hx
    refine ⟨halive, hstack, ?_⟩
    rw [List.mem_append, List.mem_singleton, not_or]
    refine ⟨hready, ?_⟩
    rintro rfl
    exact hstatus hx

/-- The current task is taken out of the processor, and the queue is as it was. -/
theorem take (h : Scheduled alive status stack readyQueue (some p)) :
    Scheduled alive status stack readyQueue none where
  mem x hx := h.mem x (List.mem_cons_of_mem _ hx)
  nodup := (List.nodup_cons.mp h.nodup).2
  zombie := h.zombie

/-- The first task of the queue is put into the processor. -/
theorem put {queue : List Nat} (h : Scheduled alive status stack (p :: queue) none) :
    Scheduled alive status stack queue (some p) where
  mem := h.mem
  nodup := h.nodup
  zombie x hx := by
    obtain ⟨halive, hstack, hready⟩ := h.zombie x hx
    exact ⟨halive, hstack, fun hmem => hready (List.mem_cons_of_mem _ hmem)⟩

/-- The control blocks change, but not those of scheduled tasks and zombies. -/
theorem of_alive (h : Scheduled alive status stack readyQueue current) (alive' : List Nat)
    (hmem : ∀ x ∈ alive, x ∈ current.toList ++ readyQueue ∨ status x = .zombie → x ∈ alive') :
    Scheduled alive' status stack readyQueue current where
  mem x hx := hmem x (h.mem x hx) (.inl hx)
  nodup := h.nodup
  zombie x hx := by
    obtain ⟨halive, hstack, hready⟩ := h.zombie x hx
    exact ⟨hmem x halive (.inr hx), hstack, hready⟩

end Scheduled

namespace Pids

variable {alive : List Nat} {next : Nat} {pid : Nat → UInt64} {handles handles' : Handles}
  {id : UInt64}

/-- The next control block is a new one: no number is used for a second process. -/
theorem next_not_mem (h : Pids alive next pid handles) : next ∉ alive :=
  fun hmem => Nat.lt_irrefl _ (h.lt next hmem)

/-- A new control block gets a handle of its own, whose number nobody has. -/
theorem pidAlloc (h : Pids alive next pid handles) (halloc : handles.Step (.pidAlloc id) handles') :
    Pids (next :: alive) (next + 1) (Function.update pid next id) handles' where
  compact := Handles.compact_step h.compact halloc
  perm := by
    have hlive : handles'.live = id :: handles.live := by
      cases halloc
      rfl
    have hmap : alive.map (Function.update pid next id) = alive.map pid := by
      refine List.map_congr_left fun x hx => Function.update_of_ne ?_ ..
      rintro rfl
      exact h.next_not_mem hx
    rw [List.map_cons, Function.update_self, hmap, hlive]
    exact h.perm.cons id
  lt x hx := by
    obtain rfl | hx := List.mem_cons.mp hx
    · exact Nat.lt_succ_self _
    · exact Nat.lt_succ_of_lt (h.lt x hx)

/-- A control block is dropped together with its handle, and the others keep theirs. -/
theorem drop (h : Pids alive next pid handles) (hp : p ∈ alive)
    (hdrop : handles.Step (.drop (pid p)) handles') :
    Pids (alive.erase p) next pid handles' where
  compact := Handles.compact_step h.compact hdrop
  perm := by
    have hlive : handles'.live = handles.live.erase (pid p) := by
      cases hdrop
      rfl
    have hperm : (pid p :: (alive.erase p).map pid).Perm handles.live :=
      ((List.perm_cons_erase hp).map pid).symm.trans h.perm
    have herase := hperm.erase (pid p)
    rwa [List.erase_cons_head, ← hlive] at herase
  lt x hx := h.lt x (List.mem_of_mem_erase hx)

end Pids

/-! ## Steps of the kernel -/

/-- The invariant holds at the start, with initproc installed or not. -/
theorem inv_boot {initproc : Option Nat} (h : initproc = none ∨ initproc = some 0) :
    Inv (boot initproc) where
  family := ⟨nofun, fun _ => List.nodup_nil, nofun⟩
  scheduled := ⟨fun _ hp => hp, List.nodup_singleton 0, nofun⟩
  pids := by
    refine ⟨?_, .refl _, fun p hp => ?_⟩
    · exact Handles.compact_step Handles.compact_new (.pidAlloc (by decide))
    · cases List.mem_singleton.mp hp
      exact Nat.zero_lt_one
  initproc p hp := by
    obtain rfl | rfl := h
    · cases hp
    · cases hp
      exact List.mem_singleton_self 0

/-- The part of the invariant about the queue, with the current task named. -/
theorem Inv.current (h : Inv s) (hcur : s.current = some p) :
    Scheduled s.alive s.status s.stack s.readyQueue (some p) := hcur ▸ h.scheduled

/-- The current task has a control block: the processor itself keeps it alive. -/
theorem Inv.mem_of_current (h : Inv s) (hcur : s.current = some p) : p ∈ s.alive :=
  (h.current hcur).mem p (List.mem_cons_self ..)

/-- `sys_yield` keeps the invariant: the current task goes to the end of the queue. -/
theorem inv_yield (h : Inv s) (hcur : s.current = some p) (hexit : .sysExit ∉ s.stack p) :
    Inv (s.sysYield p) := by
  have hsched := h.current hcur
  have hzombie : s.status p ≠ .zombie := by
    refine hsched.not_zombie fun hstack => ?_
    rw [hstack] at hexit
    exact hexit (List.mem_singleton_self _)
  rw [Kernel.sysYield_eq]
  refine ⟨h.family, ?_, h.pids, h.initproc⟩
  refine ((hsched.take.update_stack hzombie _).update_status p .ready nofun).addTask
    (h.mem_of_current hcur) hsched.not_mem_of_current ?_
  rw [Function.update_self]
  nofun

/-- `sys_fork` keeps the invariant: the child is new, in its parent's list and at the end of the
queue. -/
theorem inv_fork (h : Inv s) (hcur : s.current = some p) {pid : UInt64} {handles : Handles}
    (halloc : s.handles.Step (.pidAlloc pid) handles) : Inv (s.sysFork p pid handles) := by
  have hnext := h.pids.next_not_mem
  have hp : p ∈ s.alive := h.mem_of_current hcur
  have hpn : p ≠ s.next := by
    rintro rfl
    exact hnext hp
  refine ⟨?_, ?_, h.pids.pidAlloc halloc, fun x hx => List.mem_cons_of_mem _ (h.initproc x hx)⟩
  · have hdrain := (h.family.drain s.next).1
    have hfamily := (hdrain.cons s.next).append (List.mem_cons_of_mem _ hp) [s.next] ?_
      (List.nodup_singleton _)
    · rwa [Function.update_of_ne hpn] at hfamily
    · rw [List.forall_mem_singleton]
      exact ⟨List.mem_cons_self .., fun hinit => hnext (h.initproc _ hinit),
        fun q hq => hnext (hdrain.mem q _ hq).2.1⟩
  · have hstatus : Function.update s.status s.next .ready s.next ≠ .zombie := by
      rw [Function.update_self]
      nofun
    have hsched := h.scheduled.of_alive (s.next :: s.alive) fun x hx _ => List.mem_cons_of_mem _ hx
    exact ((hsched.update_status s.next .ready nofun).update_stack hstatus []).addTask
      (List.mem_cons_self ..) (fun hmem => hnext (h.scheduled.mem _ hmem)) hstatus

/-- The children of a process that exits go to initproc. -/
theorem Inv.reparentToInit (h : Inv s) (p : Nat) : Inv (s.reparentToInit p) := by
  unfold Kernel.reparentToInit
  split
  · exact h
  · rename_i i hinit
    refine ⟨?_, h.scheduled, h.pids, h.initproc⟩
    obtain ⟨hdrain, horphans⟩ := h.family.drain p
    refine hdrain.append (h.initproc i hinit) _ (fun c hc => ?_) (h.family.nodup p)
    obtain ⟨-, hc', hci⟩ := h.family.mem p c hc
    exact ⟨hc', hci, horphans c hc⟩

/-- `sys_exit` keeps the invariant: a zombie is at the end of `sys_exit`, and its children have
another parent. -/
theorem inv_exit (h : Inv s) (hcur : s.current = some p) (hstack : s.stack p = [.sysExit])
    (exitCode : Int32) : Inv (s.sysExit p exitCode) := by
  have hsched : Scheduled s.alive (Function.update s.status p .zombie) s.stack s.readyQueue
      s.current := by
    refine ⟨h.scheduled.mem, h.scheduled.nodup, (Function.forall_update_iff s.status fun x st =>
      st = .zombie → x ∈ s.alive ∧ s.stack x = [.sysExit] ∧ x ∉ s.readyQueue).mpr
      ⟨fun _ => ?_, fun x _ => h.scheduled.zombie x⟩⟩
    exact ⟨h.mem_of_current hcur, hstack, (h.current hcur).not_mem_of_current⟩
  refine Inv.reparentToInit ?_ p
  exact ⟨h.family, hsched, h.pids, h.initproc⟩

/-- Dropping a control block without references keeps the invariant: it is in no list, and its
handle goes with it. -/
theorem inv_drop (h : Inv s) (hp : p ∈ s.alive) (hstrong : s.strong p = 0) {handles : Handles}
    (hdrop : s.handles.Step (.drop (s.pid p)) handles) : Inv (s.drop p handles) := by
  obtain ⟨hready, hcurrent, hinit, hchild, hstack⟩ := not_mem_of_strong_eq_zero hp hstrong
  have hne : ∀ x ∈ s.alive, x ≠ p → x ∈ s.alive.erase p :=
    fun x hx hxp => (List.mem_erase_of_ne hxp).mpr hx
  refine ⟨?_, ?_, h.pids.drop hp hdrop, fun x hx => hne x (h.initproc x hx) ?_⟩
  · have hdrain := (h.family.drain p).1
    refine hdrain.erase ((Function.forall_update_iff s.children fun _ l => p ∉ l).mpr
      ⟨List.not_mem_nil, fun q _ hq => ?_⟩) (Function.update_self ..)
    exact hchild q (h.family.mem q p hq).1 hq
  · refine h.scheduled.of_alive _ fun x hx hwhere => hne x hx ?_
    rintro rfl
    obtain hmem | hz := hwhere
    · rw [List.mem_append, Option.mem_toList] at hmem
      exact hmem.elim hcurrent hready
    · exact h.scheduled.not_zombie (by rw [hstack]; nofun) hz
  · rintro rfl
    exact hinit hx

/-- **A step keeps the invariant**, whatever happens in the kernel. -/
theorem inv_step (h : Inv s) (hs : Step s e s') : Inv s' := by
  cases hs with
  | @runTasks p queue hidle hqueue =>
    have hsched := h.scheduled
    rw [hidle, hqueue] at hsched
    exact ⟨h.family, hsched.put.update_status p .running nofun, h.pids, h.initproc⟩
  | @enter p f hcur huser hf =>
    have hz := h.scheduled.not_zombie (p := p) (by rw [huser]; nofun)
    exact ⟨h.family, h.scheduled.update_stack hz _, h.pids, h.initproc⟩
  | @leave p f frames hcur hstack hf =>
    have hz := h.scheduled.not_zombie (p := p) fun hexit => hf (by
      rw [hstack] at hexit
      exact (List.cons.inj hexit).1)
    exact ⟨h.family, h.scheduled.update_stack hz _, h.pids, h.initproc⟩
  | yield hcur _ hexit => exact inv_yield h hcur hexit
  | fork hcur _ halloc => exact inv_fork h hcur halloc
  | exit exitCode hcur hstack _ => exact inv_exit h hcur hstack exitCode
  | schedule hcur _ hstatus =>
    rw [Kernel.schedule_eq hstatus]
    exact ⟨h.family, (h.current hcur).take, h.pids, h.initproc⟩
  | waitpid _ _ _ =>
    exact ⟨h.family.release List.erase_sublist, h.scheduled, h.pids, h.initproc⟩
  | drop halive hstrong hdrop => exact inv_drop h halive hstrong hdrop

/-! ## Reaped processes -/

/-- A zombie that is in no children list: nobody can wait for it any more. -/
structure Reaped (s : Kernel) (p : Nat) : Prop where
  zombie : s.status p = .zombie
  notInit : s.initproc ≠ some p
  notChild : ∀ q, p ∉ s.children q

/-- `sys_waitpid` reaps: the zombie is taken out of its parent's list, the only one it was in. -/
theorem reaped_waitpid (h : Inv s) (hc : c ∈ s.children p) (hstatus : s.status c = .zombie) :
    Reaped (s.sysWaitpid p c) c where
  zombie := hstatus
  notInit := (h.family.mem p c hc).2.2
  notChild := (Function.forall_update_iff s.children fun _ l => c ∉ l).mpr
    ⟨(h.family.nodup p).not_mem_erase, fun q hq hmem => hq (h.family.parent q p c hmem hc)⟩

/-- Who is in no list stays in none if a list changes to one without him. -/
theorem not_mem_update {children : Nat → List Nat} {l : List Nat} (hl : c ∉ l)
    (h : ∀ q, c ∉ children q) (p q : Nat) : c ∉ Function.update children p l q :=
  (Function.forall_update_iff children fun _ l => c ∉ l).mpr ⟨hl, fun q _ => h q⟩ q

/-- A process that was reaped stays so, as no step puts a zombie into a list. -/
theorem reaped_step (h : Inv s) (hr : Reaped s c) (hs : Step s e s') : Reaped s' c := by
  obtain ⟨halive, hstack, hready⟩ := h.scheduled.zombie c hr.zombie
  -- no step changes the status of a zombie
  have hstatus : ∀ p st, c ≠ p → Function.update s.status p st c = .zombie := by
    intro p st hne
    rw [Function.update_of_ne hne]
    exact hr.zombie
  cases hs with
  | @runTasks p queue _ hqueue =>
    refine ⟨hstatus p _ ?_, hr.notInit, hr.notChild⟩
    rintro rfl
    exact hready (hqueue ▸ List.mem_cons_self ..)
  | enter f _ _ _ => exact ⟨hr.zombie, hr.notInit, hr.notChild⟩
  | leave _ _ _ => exact ⟨hr.zombie, hr.notInit, hr.notChild⟩
  | @yield p _ _ hexit =>
    rw [Kernel.sysYield_eq]
    refine ⟨hstatus p _ ?_, hr.notInit, hr.notChild⟩
    rintro rfl
    exact hexit (hstack ▸ List.mem_singleton_self _)
  | @fork p pid handles _ _ _ =>
    have hne : c ≠ s.next := by
      rintro rfl
      exact h.pids.next_not_mem halive
    refine ⟨hstatus s.next _ hne, hr.notInit, not_mem_update ?_
      (not_mem_update List.not_mem_nil hr.notChild s.next) p⟩
    rw [List.mem_append, List.mem_singleton, not_or]
    exact ⟨hr.notChild p, hne⟩
  | @exit p exitCode _ _ hp =>
    have hzombie := hstatus p .zombie (by rintro rfl; exact hp hr.zombie)
    rw [Kernel.sysExit, Kernel.reparentToInit]
    split
    · exact ⟨hzombie, hr.notInit, hr.notChild⟩
    · refine ⟨hzombie, hr.notInit, not_mem_update ?_
        (not_mem_update List.not_mem_nil hr.notChild p) _⟩
      rw [List.mem_append, not_or]
      exact ⟨not_mem_update List.not_mem_nil hr.notChild p _, hr.notChild p⟩
  | schedule _ _ hp =>
    rw [Kernel.schedule_eq hp]
    exact ⟨hr.zombie, hr.notInit, hr.notChild⟩
  | @waitpid p d _ _ _ =>
    exact ⟨hr.zombie, hr.notInit,
      not_mem_update (fun hmem => hr.notChild p (List.mem_of_mem_erase hmem)) hr.notChild p⟩
  | @drop p handles _ _ _ =>
    exact ⟨hr.zombie, hr.notInit, not_mem_update List.not_mem_nil hr.notChild p⟩

/-- The invariant along a run, and what was reaped in it. -/
theorem inv_run {s₀ : Kernel} {tr : List Event} (h₀ : processes.init s₀)
    (hrun : processes.Run s₀ tr s) : Inv s ∧ ∀ q c, .waitpid q c ∈ tr → Reaped s c := by
  refine hrun.history (I := fun tr s => Inv s ∧ ∀ q c, .waitpid q c ∈ tr → Reaped s c)
    ⟨?_, nofun⟩ ?_
  · obtain rfl | rfl := h₀
    · exact inv_boot (.inl rfl)
    · exact inv_boot (.inr rfl)
  · rintro tr t e u ⟨hinv, hreaped⟩ hstep
    refine ⟨inv_step hinv hstep, fun q c hmem => ?_⟩
    obtain hmem | hmem := List.mem_append.mp hmem
    · exact reaped_step hinv (hreaped q c hmem) hstep
    · cases List.mem_singleton.mp hmem
      cases hstep with
      | waitpid _ hc hstatus => exact reaped_waitpid hinv hc hstatus

/-- What is left of a process that was reaped: the reference of `sys_exit` on its own kernel
stack. -/
theorem Reaped.strong_eq (h : Inv s) (hr : Reaped s p) :
    s.strong p = (if s.current = some p then 1 else 0) + 1 := by
  obtain ⟨halive, hstack, hready⟩ := h.scheduled.zombie p hr.zombie
  rw [Task.strong_eq h.pids.nodup_alive halive hready hr.notInit hr.notChild, hstack]
  rfl

/-- The pid of a control block that is not dropped is in use. -/
theorem Inv.pid_in_use (h : Inv s) (hp : p ∈ s.alive) :
    s.pid p ∈ s.handles.live ∧ s.pid p ∉ s.handles.allocator.recycled := by
  have hlive : s.pid p ∈ s.handles.live := h.pids.perm.mem_iff.mp (List.mem_map_of_mem hp)
  exact ⟨hlive, fun hrec => List.disjoint_of_nodup_append h.pids.compact.nodup hlive hrec⟩

/-- **A process that exits is never dropped**, not even after it was reaped: `task` of `sys_exit`
stays on its kernel stack, the only reference after the last switch. Its pid is not handed out
again. -/
theorem reaped_never_dropped {s₀ : Kernel} {tr : List Event} (h₀ : processes.init s₀)
    (hrun : processes.Run s₀ tr s) {exitCode : Int32} (_ : .exit p exitCode ∈ tr)
    (hreap : .waitpid q p ∈ tr) :
    0 < s.strong p ∧ (s.current ≠ some p → s.strong p = 1 ∧ s.stack p = [.sysExit]) ∧
    p ∈ s.alive ∧ s.pid p ∉ s.handles.allocator.recycled ∧
    ∀ pid handles, s.handles.Step (.pidAlloc pid) handles → pid ≠ s.pid p := by
  obtain ⟨hinv, hreaped⟩ := inv_run h₀ hrun
  have hr := hreaped q p hreap
  obtain ⟨halive, hstack, -⟩ := hinv.scheduled.zombie p hr.zombie
  obtain ⟨hlive, hrecycled⟩ := hinv.pid_in_use halive
  have hstrong := hr.strong_eq hinv
  refine ⟨by omega, fun hcur => ⟨?_, hstack⟩, halive, hrecycled, fun pid handles halloc => ?_⟩
  · rw [hstrong, if_neg hcur]
  · rintro rfl
    exact Handles.not_mem_live_of_step hinv.pids.compact halloc hlive

/-- The first process forks and yields, the child exits, and the first process reaps it. -/
def reapTrace : List Event :=
  [.runTasks 0, .enter 0 .sysFork, .fork 0 1, .leave 0, .yield 0, .runTasks 1, .enter 1 .sysExit,
    .exit 1 0, .schedule 1, .runTasks 0, .leave 0, .enter 0 .sysWaitpid, .waitpid 0 1]

/-- Where it ends: the first process runs, and the child it has reaped is a zombie that is still
there. -/
theorem exists_run_reapTrace : ∃ s, processes.Run (boot (some 0)) reapTrace s ∧
    s.current = some 0 ∧ s.next = 2 ∧ s.status 1 = .zombie := by
  have h₁ := (System.Run.nil (S := processes) (boot (some 0))).snoc (.runTasks rfl rfl)
  have h₂ := h₁.snoc (.enter .sysFork rfl rfl nofun)
  have h₃ := h₂.snoc (.fork rfl rfl (.pidAlloc (by decide)))
  have h₄ := h₃.snoc (.leave rfl rfl nofun)
  have h₅ := h₄.snoc (.yield rfl (by decide) (by decide))
  have h₆ := h₅.snoc (.runTasks rfl rfl)
  have h₇ := h₆.snoc (.enter .sysExit rfl rfl nofun)
  have h₈ := h₇.snoc (.exit 0 rfl rfl nofun)
  have h₉ := h₈.snoc (.schedule rfl rfl rfl)
  have h₁₀ := h₉.snoc (.runTasks rfl rfl)
  have h₁₁ := h₁₀.snoc (.leave rfl rfl nofun)
  have h₁₂ := h₁₁.snoc (.enter .sysWaitpid rfl rfl nofun)
  have h₁₃ := h₁₂.snoc (.waitpid (p := 0) (c := 1) rfl (by decide) rfl)
  exact ⟨_, h₁₃, rfl, rfl, rfl⟩

/-- The child is reaped, and one reference is left: that of its own call of `sys_exit`. -/
theorem reaped_never_dropped_child :
    ∃ s, processes.Run (boot (some 0)) reapTrace s ∧ s.strong 1 = 1 := by
  obtain ⟨s, hrun, hcur, -⟩ := exists_run_reapTrace
  have h := reaped_never_dropped (.inr rfl) hrun (show .exit 1 0 ∈ reapTrace by decide)
    (show .waitpid 0 1 ∈ reapTrace by decide)
  exact ⟨s, hrun, (h.2.1 (by rw [hcur]; decide)).1⟩

/-- Not every process that exits and is reaped is without references. -/
theorem reaped_is_referenced : ¬ ∀ (s₀ s : Kernel) (tr : List Event) (p q : Nat)
    (exitCode : Int32), processes.init s₀ → processes.Run s₀ tr s → .exit p exitCode ∈ tr →
    .waitpid q p ∈ tr → s.strong p = 0 := by
  intro h
  obtain ⟨s, hrun, -⟩ := exists_run_reapTrace
  have hzero := h _ s reapTrace 1 0 0 (.inr rfl) hrun (by decide) (by decide)
  obtain ⟨hinv, hreaped⟩ := inv_run (.inr rfl) hrun
  rw [(hreaped 0 1 (by decide)).strong_eq hinv] at hzero
  omega

end TinyOS.Task
