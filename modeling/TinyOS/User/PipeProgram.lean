import TinyOS.Fs.PipeEnds

/-!
# The pipe programs

`pipe_test.rs` and `t_pipe_roundtrip` of `usertests.rs` in `phase_6_shell/user`: a process makes a
pipe and forks; one of the two writes a message, the other reads into a buffer, each closes the end
it does not need, and the parent waits for its child before it exits. Which of them is the child,
the message, the length of the buffer and whether the writer closes its end before it goes on are
parameters of `Program`.

They run on the kernel of `TinyOS.Fs.PipeEnds`, to which `Kernel` adds the children lists that
`wait` looks at, beside any other processes (`Step.env`). This module has the programs and how far
each of the two processes has come, with what it has written or read (`Writer`, `Reader`);
`TinyOS.User.PipeTest` has the runs of both.

Left out: `println!` and the exit codes, which have no part in the pipe.
-/

namespace TinyOS.PipeTest

open Transition Pipes

/-- The calls of the two programs, on files, and those by which a process waits and ends. -/
inductive Call where
  | close (fd : Nat)
  | read (fd len : Nat)
  | write (fd : Nat) (buf : List UInt8)
  | wait
  | exit
  deriving DecidableEq

/-- A program with a pipe between a parent and its child. -/
structure Program where
  childReads : Bool
  message : List UInt8
  bufLen : Nat
  /-- The writer closes its end after `write`. -/
  closes : Bool

namespace Program

/-- How a process ends: the parent waits for its child first. -/
def leave (parent : Bool) : List Call := if parent then [.wait, .exit] else [.exit]

/-- The process that reads, after `fork`: it closes the write end, reads, and ends. -/
def reader (prog : Program) (rd wr : Nat) : List Call :=
  .close wr :: .read rd prog.bufLen :: leave (!prog.childReads)

/-- What the writer does after `write`: it closes its end if the program does, and ends. -/
def last (prog : Program) (wr : Nat) : List Call :=
  if prog.closes then .close wr :: leave prog.childReads else leave prog.childReads

/-- The process that writes, after `fork`: it closes the read end, and writes the message. -/
def writer (prog : Program) (rd wr : Nat) : List Call :=
  .close rd :: .write wr prog.message :: prog.last wr

/-- Of what belongs to the writer and to the reader, what belongs to the parent. -/
def parent {α : Type} (prog : Program) (writer reader : α) : α :=
  if prog.childReads then writer else reader

/-- Of what belongs to the writer and to the reader, what belongs to the child. -/
def child {α : Type} (prog : Program) (writer reader : α) : α :=
  if prog.childReads then reader else writer

end Program

/-- `t_pipe_roundtrip` of `usertests.rs`, up to the end of the tests. -/
def tPipeRoundtrip : Program := ⟨false, [104, 101, 108, 108, 111], 5, false⟩

/-! ## The kernel and the programs -/

/-- The pipes and descriptors of all processes, and who has which children. -/
structure Kernel where
  pipes : State
  children : Nat → List Nat

/-- What happens: a call of `TinyOS.Fs.PipeEnds`, or `sys_waitpid(-1)` with what it returns. -/
inductive Label where
  | call (e : Event)
  /-- It finds the zombie `c` and returns its pid. -/
  | reap (p c : Nat)
  /-- It returns -2, and `wait` calls `sys_yield` before it tries again. -/
  | again (p : Nat)
  /-- It returns -1. -/
  | noChild (p : Nat)

/-- The children lists after a call: `sys_fork` adds the child to its parent's, and
`reparent_to_init` in `sys_exit` moves the children to the first process. -/
def adopt (children : Nat → List Nat) : Event → Nat → List Nat
  | .fork p c => Function.update (Function.update children c []) p (children p ++ [c])
  | .exit p =>
    let drained := Function.update children p []
    Function.update drained 0 (drained 0 ++ children p)
  | _ => children

/-- A step of the kernel. A zombie is a process that has exited. -/
inductive KernelStep (κ : Kernel) : Label → Kernel → Prop where
  | call {s' : State} {e : Event} (hs : Pipes.Step κ.pipes e s') :
      KernelStep κ (.call e) ⟨s', adopt κ.children e⟩
  | reap {p c : Nat} (hp : p < κ.pipes.procs) (huser : κ.pipes.activity p = .user)
      (hc : c ∈ κ.children p) (hz : κ.pipes.activity c = .exited) :
      KernelStep κ (.reap p c)
        { κ with children := Function.update κ.children p ((κ.children p).erase c) }
  | again {p : Nat} (hp : p < κ.pipes.procs) (huser : κ.pipes.activity p = .user)
      (hsome : κ.children p ≠ []) (hrunning : ∀ c ∈ κ.children p, κ.pipes.activity c ≠ .exited) :
      KernelStep κ (.again p) κ
  | noChild {p : Nat} (hp : p < κ.pipes.procs) (huser : κ.pipes.activity p = .user)
      (hnone : κ.children p = []) : KernelStep κ (.noChild p) κ

/-- Where the program is. The descriptors are `fds[0]` and `fds[1]`. -/
inductive Phase where
  | start
  | piped (p k rd wr : Nat)
  | forked (w r k rd wr : Nat) (writer reader : List Call)

/-- The kernel, with the pipes of all processes, and where the program is. -/
structure Config where
  kernel : Kernel
  phase : Phase

/-- The process that makes a call of the kernel, or goes on with one. -/
def proc : Event → Nat
  | .pipe p _ | .dup p _ | .close p _ | .fork p _ | .exit p | .read p _ _ | .write p _ _
  | .get p _ _ | .put p _ _ | .readDone p _ | .eof p _ | .writeDone p _ => p

/-- The process that makes a step, be it one of its calls or of the loop in `wait`. -/
def Label.proc : Label → Nat
  | .call e => PipeTest.proc e
  | .reap p _ | .again p | .noChild p => p

/-- The processes of the program: none yet, the one that made the pipe, or the two of them. -/
def Phase.own : Phase → Nat → Prop
  | .start, _ => False
  | .piped p _ _ _, q => q = p
  | .forked w r _ _ _ _ _, q => q = w ∨ q = r

/-- How a process goes through its calls. `read` and `write` take several steps. -/
inductive Advance (q : Nat) : List Call → Event → List Call → Prop where
  | close {fd : Nat} {l : List Call} : Advance q (.close fd :: l) (.close q fd) l
  | exit {l : List Call} : Advance q (.exit :: l) (.exit q) l
  | read {fd len : Nat} {l : List Call} :
      Advance q (.read fd len :: l) (.read q fd len) (.read fd len :: l)
  | get {fd len k : Nat} {b : UInt8} {l : List Call} :
      Advance q (.read fd len :: l) (.get q k b) (.read fd len :: l)
  | readDone {fd len k : Nat} {l : List Call} : Advance q (.read fd len :: l) (.readDone q k) l
  | eof {fd len k : Nat} {l : List Call} : Advance q (.read fd len :: l) (.eof q k) l
  | write {fd : Nat} {buf : List UInt8} {l : List Call} :
      Advance q (.write fd buf :: l) (.write q fd buf) (.write fd buf :: l)
  | put {fd k : Nat} {buf : List UInt8} {b : UInt8} {l : List Call} :
      Advance q (.write fd buf :: l) (.put q k b) (.write fd buf :: l)
  | writeDone {fd k : Nat} {buf : List UInt8} {l : List Call} :
      Advance q (.write fd buf :: l) (.writeDone q k) l

/-- The same with `wait`, which ends with any result but -2. -/
inductive Goes (q : Nat) : List Call → Label → List Call → Prop where
  | call {l l' : List Call} {e : Event} (h : Advance q l e l') : Goes q l (.call e) l'
  | reap {c : Nat} {l : List Call} : Goes q (.wait :: l) (.reap q c) l
  | again {l : List Call} : Goes q (.wait :: l) (.again q) (.wait :: l)
  | noChild {l : List Call} : Goes q (.wait :: l) (.noChild q) l

/-- The steps of the program and of the other processes. Before the program starts, any process may
do anything. It is started by a process without children that is not the first one, as the shell
starts it: in a child of its own. -/
inductive Step (prog : Program) : Config → Label → Config → Prop where
  | env {κ κ' : Kernel} {phase : Phase} {a : Label} (hs : KernelStep κ a κ')
      (hown : ¬ phase.own a.proc) : Step prog ⟨κ, phase⟩ a ⟨κ', phase⟩
  | pipe {κ κ' : Kernel} {p : Nat} (hinit : p ≠ 0) (hchildren : κ.children p = [])
      (hs : KernelStep κ (.call (.pipe p κ.pipes.pipes)) κ') :
      Step prog ⟨κ, .start⟩ (.call (.pipe p κ.pipes.pipes)) ⟨κ', .piped p κ.pipes.pipes
        ((κ.pipes.fdTable p).install (.readEnd κ.pipes.pipes)).1
        (((κ.pipes.fdTable p).install (.readEnd κ.pipes.pipes)).2.install
          (.writeEnd κ.pipes.pipes)).1⟩
  | fork {κ κ' : Kernel} {p k rd wr : Nat}
      (hs : KernelStep κ (.call (.fork p κ.pipes.procs)) κ') :
      Step prog ⟨κ, .piped p k rd wr⟩ (.call (.fork p κ.pipes.procs)) ⟨κ',
        if prog.childReads then
          .forked p κ.pipes.procs k rd wr (prog.writer rd wr) (prog.reader rd wr)
        else .forked κ.pipes.procs p k rd wr (prog.writer rd wr) (prog.reader rd wr)⟩
  | writer {κ κ' : Kernel} {w r k rd wr : Nat} {l l' lr : List Call} {a : Label}
      (hs : KernelStep κ a κ') (hgo : Goes w l a l') :
      Step prog ⟨κ, .forked w r k rd wr l lr⟩ a ⟨κ', .forked w r k rd wr l' lr⟩
  | reader {κ κ' : Kernel} {w r k rd wr : Nat} {l l' lw : List Call} {a : Label}
      (hs : KernelStep κ a κ') (hgo : Goes r l a l') :
      Step prog ⟨κ, .forked w r k rd wr lw l⟩ a ⟨κ', .forked w r k rd wr lw l'⟩

/-- Nothing has happened yet: the first process runs, and has no children. -/
def start : Config := ⟨⟨boot, fun _ => []⟩, .start⟩

/-- The program beside the other processes, in any interleaving with them. -/
def programs (prog : Program) : System Config Label where
  init c := c = start
  step := Step prog

/-- The calls of a run, without what `sys_waitpid` returns, which has nothing to do with pipes. -/
def calls (tr : List Label) : List Event :=
  tr.filterMap fun
    | .call e => some e
    | _ => none

variable {prog : Program} {s s' : State} {κ κ' : Kernel} {c c' : Config} {e : Event} {a : Label}
  {f : FileRef} {tr : List Label} {p q k rd wr w r : Nat} {l l' lw lr : List Call}

/-- A step of the programs is one of the kernel. -/
theorem Step.kernel (hs : Step prog c a c') : KernelStep c.kernel a c'.kernel := by
  cases hs with
  | env hs | pipe _ _ hs | fork hs | writer hs | reader hs => exact hs

/-- The calls of two runs are those of the first and then those of the second. -/
@[simp] theorem calls_append (tr tr' : List Label) : calls (tr ++ tr') = calls tr ++ calls tr' :=
  List.filterMap_append ..

/-- A step of the kernel is a call or none of the pipes' business. -/
theorem KernelStep.pipes (hs : KernelStep κ a κ') :
    (∃ e, a = .call e ∧ Pipes.Step κ.pipes e κ'.pipes ∧ calls [a] = [e]) ∨
      κ'.pipes = κ.pipes ∧ calls [a] = [] := by
  cases hs with
  | call hs => exact .inl ⟨_, rfl, hs, rfl⟩
  | reap | again | noChild => exact .inr ⟨rfl, rfl⟩

/-! ## Other processes -/

/-- A step of another process leaves a process as it is. -/
theorem other (hs : Pipes.Step s e s') (hq : q < s.procs) (hne : proc e ≠ q) :
    s'.fdTable q = s.fdTable q ∧ s'.activity q = s.activity q := by
  have hne' : q ≠ proc e := Ne.symm hne
  cases hs with
  | pipe | dup | close => exact ⟨Function.update_of_ne hne' .., rfl⟩
  | fork => exact ⟨Function.update_of_ne hq.ne .., Function.update_of_ne hq.ne ..⟩
  | exit => exact ⟨Function.update_of_ne hne' .., Function.update_of_ne hne' ..⟩
  | read | write | get | put | readDone | eof | writeDone =>
    exact ⟨rfl, Function.update_of_ne hne' ..⟩

/-- Who has no end of a pipe neither reads from it nor writes to it. -/
theorem silent (hs : Pipes.Step s e s') (hw : ¬ Refers s (proc e) (.writeEnd k))
    (hr : ¬ Refers s (proc e) (.readEnd k)) : written k [e] = [] ∧ received k [e] = [] := by
  cases hs with
  | pipe | dup | close | fork | exit | read | write | readDone | eof | writeDone =>
    exact ⟨rfl, rfl⟩
  | @get p k' left b _ hp ha _ _ =>
    refine ⟨rfl, ?_⟩
    rw [received_get, if_neg]
    rintro rfl
    exact hr ⟨hp, .inr (by rw [proc, ha]; rfl)⟩
  | @put p k' b left _ hp ha _ _ =>
    refine ⟨?_, rfl⟩
    rw [written_put, if_neg]
    rintro rfl
    exact hw ⟨hp, .inr (by rw [proc, ha]; rfl)⟩

/-- Only some processes have ends of a pipe: the others have no descriptor and no call of it. -/
structure Only (s : State) (k : Nat) (own : Nat → Prop) : Prop where
  made : k < s.pipes
  read : ∀ q, ¬ own q → ¬ Refers s q (.readEnd k)
  write : ∀ q, ¬ own q → ¬ Refers s q (.writeEnd k)

/-- It stays so: a child of a process without ends has none either. -/
theorem Only.step {own own' : Nat → Prop} (h : Only s k own) (hs : Pipes.Step s e s')
    (hsub : ∀ q, own q → own' q) (hfork : ∀ p q, e = .fork p q → own p → own' q) :
    Only s' k own' := by
  have hend : ∀ f, f = .readEnd k ∨ f = .writeEnd k → (∀ q, ¬ own q → ¬ Refers s q f) →
      ∀ q, ¬ own' q → ¬ Refers s' q f := by
    intro f hf hnone q hq href
    rcases hs.refers href with href | ⟨p, rfl, href⟩ | ⟨-, hnew⟩
    · exact hnone q (fun ho => hq (hsub q ho)) href
    · exact hnone p (fun ho => hq (hfork p q rfl ho)) href
    · have hk := h.made
      rcases hf with rfl | rfl <;> rcases hnew with hnew | hnew <;> cases hnew <;>
        exact absurd hk (lt_irrefl _)
  exact ⟨h.made.trans_le hs.pipes_le, hend _ (.inl rfl) h.read, hend _ (.inr rfl) h.write⟩

/-! ## The descriptors of a process -/

/-- The descriptors a process has for the ends of a pipe. -/
structure Ends (s : State) (q k : Nat) (rd wr : Option Nat) : Prop where
  read : ∀ fd, (s.fdTable q).file? fd = some (.readEnd k) ↔ rd = some fd
  write : ∀ fd, (s.fdTable q).file? fd = some (.writeEnd k) ↔ wr = some fd

/-- The ends a process has depend on its descriptor table only. -/
theorem Ends.congr {rd wr : Option Nat} (h : Ends s q k rd wr)
    (htable : s'.fdTable q = s.fdTable q) : Ends s' q k rd wr := by
  constructor
  · rw [htable]
    exact h.read
  · rw [htable]
    exact h.write

/-- A process that has the write end open refers to it. -/
theorem Ends.refers {rd : Option Nat} (h : Ends s q k rd (some wr)) (hq : q < s.procs) :
    Refers s q (.writeEnd k) :=
  ⟨hq, .inl (mem_of_file? ((h.write wr).mpr rfl))⟩

/-- Closing the read end takes away this descriptor and no other one. -/
theorem Ends.close_read {wr : Option Nat} (h : Ends s q k (some rd) wr)
    (htable : s'.fdTable q = (s.fdTable q).close rd) : Ends s' q k none wr := by
  constructor <;> intro fd <;> rw [htable, FdTable.file?_close] <;> split
  · simp
  · rename_i hne
    rw [h.read]
    simp [Ne.symm hne]
  · rename_i heq
    have hrd := (h.read rd).mpr rfl
    rw [← h.write, heq, hrd]
    simp
  · exact h.write fd

/-- Closing the write end takes away this descriptor and no other one. -/
theorem Ends.close_write {rd : Option Nat} (h : Ends s q k rd (some wr))
    (htable : s'.fdTable q = (s.fdTable q).close wr) : Ends s' q k rd none := by
  constructor <;> intro fd <;> rw [htable, FdTable.file?_close] <;> split
  · rename_i heq
    have hwr := (h.write wr).mpr rfl
    rw [← h.read, heq, hwr]
    simp
  · exact h.read fd
  · simp
  · rename_i hne
    rw [h.write]
    simp [Ne.symm hne]

/-- A process that exits has no end of the pipe any more, as all its descriptors are taken away. -/
theorem ends_exit (htable : s'.fdTable q = (s.fdTable q).map fun _ => none) :
    Ends s' q k none none := by
  have hnone : ∀ fd, (s'.fdTable q).file? fd = none := by
    intro fd
    rw [htable, FdTable.file?, List.getElem?_map]
    cases (s.fdTable q)[fd]? <;> rfl
  constructor <;> intro fd <;> rw [hnone] <;> simp

/-- `pipe` gives both, to a process that had none, under two different descriptors. -/
theorem ends_pipe {t : FdTable FileRef} (hmade : ∀ fd, t.file? fd ≠ some (.readEnd k) ∧
      t.file? fd ≠ some (.writeEnd k))
    (htable : s'.fdTable q = ((t.install (.readEnd k)).2.install (.writeEnd k)).2) :
    Ends s' q k (some (t.install (.readEnd k)).1)
      (some ((t.install (.readEnd k)).2.install (.writeEnd k)).1) := by
  have hrd := FdTable.file?_install_self t (.readEnd k)
  have hnone := FdTable.file?_allocFd (t.install (.readEnd k)).2
  constructor <;> intro fd <;> rw [htable]
  · by_cases hfd : fd = (t.install (.readEnd k)).2.allocFd.1
    · subst hfd
      rw [show (t.install (.readEnd k)).2.allocFd.1 =
        ((t.install (.readEnd k)).2.install (.writeEnd k)).1 from rfl, FdTable.file?_install_self]
      refine ⟨nofun, fun heq => ?_⟩
      rw [Option.some.injEq] at heq
      rw [show ((t.install (.readEnd k)).2.install (.writeEnd k)).1 =
        (t.install (.readEnd k)).2.allocFd.1 from rfl] at heq
      rw [← heq, hrd] at hnone
      cases hnone
    · rw [FdTable.file?_install_of_ne hfd]
      by_cases hfd' : fd = t.allocFd.1
      · subst hfd'
        exact ⟨fun _ => rfl, fun _ => hrd⟩
      · rw [FdTable.file?_install_of_ne hfd']
        refine ⟨fun h => absurd h (hmade fd).1, fun h => absurd (Option.some.inj h).symm hfd'⟩
  · by_cases hfd : fd = (t.install (.readEnd k)).2.allocFd.1
    · subst hfd
      exact ⟨fun _ => rfl, fun _ => FdTable.file?_install_self ..⟩
    · rw [FdTable.file?_install_of_ne hfd]
      refine ⟨fun h => ?_, fun h => absurd (Option.some.inj h).symm hfd⟩
      by_cases hfd' : fd = t.allocFd.1
      · subst hfd'
        rw [show t.allocFd.1 = (t.install (.readEnd k)).1 from rfl, hrd] at h
        cases h
      · rw [FdTable.file?_install_of_ne hfd'] at h
        exact absurd h (hmade fd).2

/-! ## The writer and the reader -/

/-- A process advances by calls of its own, and not by a `fork`. -/
theorem Advance.proc (h : Advance q l e l') : PipeTest.proc e = q ∧ ∀ p c, e ≠ .fork p c := by
  cases h <;> exact ⟨rfl, by simp⟩

/-- Where the writer is, with what it has written, by the calls it still has to make. -/
inductive Writer (prog : Program) (s : State) (w k rd wr : Nat) (out : List UInt8) :
    List Call → Prop where
  | closeRead (ends : Ends s w k (some rd) (some wr)) (ha : s.activity w = .user)
      (hout : out = []) :
      Writer prog s w k rd wr out (.close rd :: .write wr prog.message :: prog.last wr)
  | write (ends : Ends s w k none (some wr)) (ha : s.activity w = .user) (hout : out = []) :
      Writer prog s w k rd wr out (.write wr prog.message :: prog.last wr)
  | writing {left : List UInt8} (ends : Ends s w k none (some wr))
      (ha : s.activity w = .writing k left) (hout : out ++ left = prog.message) :
      Writer prog s w k rd wr out (.write wr prog.message :: prog.last wr)
  | closeWrite (ends : Ends s w k none (some wr)) (ha : s.activity w = .user)
      (hcloses : prog.closes = true) (hout : out = prog.message) :
      Writer prog s w k rd wr out (.close wr :: Program.leave prog.childReads)
  | wait {wr' : Option Nat} (ends : Ends s w k none wr') (ha : s.activity w = .user)
      (hparent : prog.childReads = true) (hcloses : prog.closes = true → wr' = none)
      (hout : out = prog.message) : Writer prog s w k rd wr out [.wait, .exit]
  | exit {wr' : Option Nat} (ends : Ends s w k none wr') (ha : s.activity w = .user)
      (hout : out = prog.message) : Writer prog s w k rd wr out [.exit]
  | done (ends : Ends s w k none none) (ha : s.activity w = .exited)
      (hout : out = prog.message) : Writer prog s w k rd wr out []

/-- Where the reader is, with what it has read, by the calls it still has to make. -/
inductive Reader (prog : Program) (s : State) (r k rd wr : Nat) (inp : List UInt8) :
    List Call → Prop where
  | closeWrite (ends : Ends s r k (some rd) (some wr)) (ha : s.activity r = .user)
      (hinp : inp = []) : Reader prog s r k rd wr inp
        (.close wr :: .read rd prog.bufLen :: Program.leave (!prog.childReads))
  | read (ends : Ends s r k (some rd) none) (ha : s.activity r = .user) (hinp : inp = []) :
      Reader prog s r k rd wr inp (.read rd prog.bufLen :: Program.leave (!prog.childReads))
  | reading {left : Nat} (ends : Ends s r k (some rd) none) (ha : s.activity r = .reading k left)
      (hinp : inp.length + left = prog.bufLen) :
      Reader prog s r k rd wr inp (.read rd prog.bufLen :: Program.leave (!prog.childReads))
  | wait (ends : Ends s r k (some rd) none) (ha : s.activity r = .user)
      (hparent : prog.childReads = false) (hinp : inp = prog.message.take prog.bufLen) :
      Reader prog s r k rd wr inp [.wait, .exit]
  | exit (ends : Ends s r k (some rd) none) (ha : s.activity r = .user)
      (hinp : inp = prog.message.take prog.bufLen) : Reader prog s r k rd wr inp [.exit]
  | done (ends : Ends s r k none none) (ha : s.activity r = .exited)
      (hinp : inp = prog.message.take prog.bufLen) : Reader prog s r k rd wr inp []

/-- Where the writer is depends on its descriptor table and its activity only. -/
theorem Writer.congr {out : List UInt8} (h : Writer prog s w k rd wr out l)
    (hsame : s'.fdTable w = s.fdTable w ∧ s'.activity w = s.activity w) :
    Writer prog s' w k rd wr out l := by
  obtain ⟨htable, hact⟩ := hsame
  cases h with
  | closeRead ends ha hout => exact .closeRead (ends.congr htable) (hact.trans ha) hout
  | write ends ha hout => exact .write (ends.congr htable) (hact.trans ha) hout
  | writing ends ha hout => exact .writing (ends.congr htable) (hact.trans ha) hout
  | closeWrite ends ha hcloses hout =>
    exact .closeWrite (ends.congr htable) (hact.trans ha) hcloses hout
  | wait ends ha hparent hcloses hout =>
    exact .wait (ends.congr htable) (hact.trans ha) hparent hcloses hout
  | exit ends ha hout => exact .exit (ends.congr htable) (hact.trans ha) hout
  | done ends ha hout => exact .done (ends.congr htable) (hact.trans ha) hout

/-- Where the reader is depends on its descriptor table and its activity only. -/
theorem Reader.congr {inp : List UInt8} (h : Reader prog s r k rd wr inp l)
    (hsame : s'.fdTable r = s.fdTable r ∧ s'.activity r = s.activity r) :
    Reader prog s' r k rd wr inp l := by
  obtain ⟨htable, hact⟩ := hsame
  cases h with
  | closeWrite ends ha hinp => exact .closeWrite (ends.congr htable) (hact.trans ha) hinp
  | read ends ha hinp => exact .read (ends.congr htable) (hact.trans ha) hinp
  | reading ends ha hinp => exact .reading (ends.congr htable) (hact.trans ha) hinp
  | wait ends ha hparent hinp => exact .wait (ends.congr htable) (hact.trans ha) hparent hinp
  | exit ends ha hinp => exact .exit (ends.congr htable) (hact.trans ha) hinp
  | done ends ha hinp => exact .done (ends.congr htable) (hact.trans ha) hinp

/-- What has been written is the beginning of the message. -/
theorem Writer.isPrefix {out : List UInt8} (h : Writer prog s w k rd wr out l) :
    out <+: prog.message := by
  cases h with
  | closeRead _ _ hout | write _ _ hout => exact hout ▸ List.nil_prefix
  | writing _ _ hout => exact ⟨_, hout⟩
  | closeWrite _ _ _ hout | wait _ _ _ _ hout | exit _ _ hout | done _ _ hout =>
    exact hout ▸ List.prefix_rfl

/-- A writer that does not refer to the write end has written the message. -/
theorem Writer.out_eq {out : List UInt8} (h : Writer prog s w k rd wr out l) (hw : w < s.procs)
    (hnone : ¬ Refers s w (.writeEnd k)) : out = prog.message := by
  cases h with
  | closeRead ends _ _ | write ends _ _ | writing ends _ _ | closeWrite ends _ _ _ =>
    exact absurd (ends.refers hw) hnone
  | wait _ _ _ _ hout | exit _ _ hout | done _ _ hout => exact hout

/-- The writer is through with the pipe, and has its end to do: to wait for the reader, or just
to exit. -/
theorem Writer.leave {out : List UInt8} {wr' : Option Nat} (ends : Ends s w k none wr')
    (ha : s.activity w = .user) (hcloses : prog.closes = true → wr' = none)
    (hout : out = prog.message) :
    Writer prog s w k rd wr out (Program.leave prog.childReads) := by
  cases hparent : prog.childReads with
  | true => exact .wait ends ha hparent hcloses hout
  | false => exact .exit ends ha hout

/-- The reader is through with the pipe, and has its end to do: to wait for the writer, or just
to exit. -/
theorem Reader.leave {inp : List UInt8} (ends : Ends s r k (some rd) none)
    (ha : s.activity r = .user) (hinp : inp = prog.message.take prog.bufLen) :
    Reader prog s r k rd wr inp (Program.leave (!prog.childReads)) := by
  cases hparent : prog.childReads with
  | true => exact .exit ends ha hinp
  | false => exact .wait ends ha hparent hinp

/-- The writer goes on by one of its calls, and what it puts is what it has written then; it
gets nothing. -/
theorem Writer.step {out : List UInt8} (h : Writer prog s w k rd wr out l)
    (hs : Pipes.Step s e s') (hadv : Advance w l e l') :
    Writer prog s' w k rd wr (out ++ written k [e]) l' ∧ received k [e] = [] := by
  have hquiet : out ++ [] = out := List.append_nil out
  cases h with
  | closeRead ends ha hout =>
    cases hadv with
    | close =>
      cases hs with
      | close _ _ =>
        refine ⟨.write (ends.close_read (Function.update_self ..)) ha ?_, rfl⟩
        exact hquiet.trans hout
  | write ends ha hout =>
    cases hadv with
    | write =>
      cases hs with
      | @write _ _ k' _ _ _ hf =>
        obtain rfl : k' = k := by
          rw [(ends.write wr).mpr rfl] at hf
          cases hf
          rfl
        refine ⟨.writing (ends.congr rfl) (Function.update_self ..) ?_, rfl⟩
        rw [hout]
        rfl
    | put =>
      cases hs with
      | put _ ha' _ _ =>
        rw [ha] at ha'
        cases ha'
    | writeDone =>
      cases hs with
      | writeDone _ ha' =>
        rw [ha] at ha'
        cases ha'
  | writing ends ha hout =>
    cases hadv with
    | write =>
      cases hs with
      | write _ _ huser _ =>
        rw [ha] at huser
        cases huser
    | put =>
      cases hs with
      | put _ ha' _ _ =>
        rw [ha] at ha'
        cases ha'
        refine ⟨.writing (ends.congr rfl) (Function.update_self ..) ?_, rfl⟩
        rw [written_put, if_pos rfl, List.append_assoc]
        exact hout
    | writeDone =>
      cases hs with
      | writeDone _ ha' =>
        rw [ha] at ha'
        cases ha'
        refine ⟨?_, rfl⟩
        have hout' : out ++ [] = prog.message := hout
        unfold Program.last
        split
        · exact .closeWrite (ends.congr rfl) (Function.update_self ..) ‹_› hout'
        · exact .leave (ends.congr rfl) (Function.update_self ..) (fun hc => absurd hc ‹_›) hout'
  | closeWrite ends ha _ hout =>
    cases hadv with
    | close =>
      cases hs with
      | close _ _ =>
        refine ⟨.leave (ends.close_write (Function.update_self ..)) ha (fun _ => rfl) ?_, rfl⟩
        exact hquiet.trans hout
  | wait => cases hadv
  | exit ends ha hout =>
    cases hadv with
    | exit =>
      cases hs with
      | exit _ _ =>
        refine ⟨.done (ends_exit (Function.update_self ..)) (Function.update_self ..) ?_, rfl⟩
        exact hquiet.trans hout
  | done => cases hadv

/-- The reader goes on. At the end of file it has the whole message. -/
theorem Reader.step {inp : List UInt8} (h : Reader prog s r k rd wr inp l)
    (hs : Pipes.Step s e s') (hadv : Advance r l e l') (hpre : inp <+: prog.message)
    (heof : (s.ring k).availableRead = 0 → s.allWriteEndsClosed k = true → inp = prog.message) :
    Reader prog s' r k rd wr (inp ++ received k [e]) l' ∧ written k [e] = [] := by
  have hquiet : inp ++ [] = inp := List.append_nil inp
  cases h with
  | closeWrite ends ha hinp =>
    cases hadv with
    | close =>
      cases hs with
      | close _ _ =>
        refine ⟨.read (ends.close_write (Function.update_self ..)) ha ?_, rfl⟩
        exact hquiet.trans hinp
  | read ends ha hinp =>
    cases hadv with
    | read =>
      cases hs with
      | @read _ _ k' _ _ _ hf =>
        obtain rfl : k' = k := by
          rw [(ends.read rd).mpr rfl] at hf
          cases hf
          rfl
        refine ⟨.reading (ends.congr rfl) (Function.update_self ..) ?_, rfl⟩
        rw [hinp]
        exact Nat.zero_add _
    | get =>
      cases hs with
      | get _ ha' _ _ =>
        rw [ha] at ha'
        cases ha'
    | readDone =>
      cases hs with
      | readDone _ ha' =>
        rw [ha] at ha'
        cases ha'
    | eof =>
      cases hs with
      | eof _ ha' _ _ =>
        rw [ha] at ha'
        cases ha'
  | reading ends ha hinp =>
    cases hadv with
    | read =>
      cases hs with
      | read _ _ huser _ =>
        rw [ha] at huser
        cases huser
    | get =>
      cases hs with
      | get _ ha' _ _ =>
        rw [ha] at ha'
        cases ha'
        refine ⟨.reading (ends.congr rfl) (Function.update_self ..) ?_, rfl⟩
        rw [received_get, if_pos rfl, List.length_append, List.length_singleton]
        omega
    | readDone =>
      cases hs with
      | readDone _ ha' =>
        rw [ha] at ha'
        cases ha'
        refine ⟨.leave (ends.congr rfl) (Function.update_self ..) ?_, rfl⟩
        rw [← hinp]
        exact hquiet.trans (List.prefix_iff_eq_take.mp hpre)
    | eof =>
      cases hs with
      | eof _ ha' havail hclosed =>
        rw [ha] at ha'
        cases ha'
        have hall := heof havail hclosed
        refine ⟨.leave (ends.congr rfl) (Function.update_self ..) ?_, rfl⟩
        rw [← hall, List.take_of_length_le (by omega)]
        exact hquiet
  | wait => cases hadv
  | exit ends ha hinp =>
    cases hadv with
    | exit =>
      cases hs with
      | exit _ _ =>
        refine ⟨.done (ends_exit (Function.update_self ..)) (Function.update_self ..) ?_, rfl⟩
        exact hquiet.trans hinp
  | done => cases hadv

/-- `wait` returns. The writer has done the rest, and has only to exit. -/
theorem Writer.waited {out : List UInt8} (h : Writer prog s w k rd wr out (.wait :: l)) :
    Writer prog s w k rd wr out l := by
  cases h with
  | wait ends ha _ _ hout => exact .exit ends ha hout

/-- A reader that waits has only to exit afterwards: it has read, and its pipe does not matter
any more. -/
theorem Reader.waited {inp : List UInt8} (h : Reader prog s r k rd wr inp (.wait :: l)) :
    Reader prog s r k rd wr inp l := by
  cases h with
  | wait ends ha _ hinp => exact .exit ends ha hinp

/-- Only a parent waits: the writer is the parent then. -/
theorem Writer.parent {out : List UInt8} (h : Writer prog s w k rd wr out (.wait :: l)) :
    prog.childReads = true := by
  cases h with
  | wait _ _ hparent _ _ => exact hparent

/-- Only a parent waits: the reader is the parent then. -/
theorem Reader.parent {inp : List UInt8} (h : Reader prog s r k rd wr inp (.wait :: l)) :
    prog.childReads = false := by
  cases h with
  | wait _ _ hparent _ => exact hparent

end TinyOS.PipeTest
