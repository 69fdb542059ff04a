import TinyOS.Task.Reaping

/-!
# Programs on the process kernel

Programs that `fork`, `wait` and `exit`, run on the kernel of `TinyOS.Task.Process` beside processes
that do anything. A `Program` says which syscall comes next and how the program goes on with its
result; a child goes on with the result 0. Every step is one of the kernel (`Step.kernel`).

`main` of `init.rs` forks a shell and waits until the shell is reaped, before it forks the next one;
whom it reaps meanwhile it has adopted. `run_init` says that it always supervises one shell.

Left out: `println!`, and pids from `2 ^ 63` on, which are negative as an `isize`.
-/

namespace TinyOS.User

open Transition

/-- The syscalls of the modelled programs, with their arguments. -/
inductive Call where
  | fork
  | waitpid (pid : Int)
  | yield
  | exit (exitCode : Int32)
  deriving DecidableEq

/-- The function of the kernel that serves a call, and whose frame is on the stack meanwhile. -/
def Call.syscall : Call → Task.Syscall
  | .fork => .sysFork
  | .waitpid _ => .sysWaitpid
  | .yield => .sysYield
  | .exit _ => .sysExit

/-- A program, by its states. In a state without a syscall it has called `exec` or panics, and does
anything. -/
structure Program (σ : Type) where
  call : σ → Option Call
  ret : σ → Int → σ

/-- A process that runs the program, and what the syscall it is in will return. -/
structure Control (σ : Type) where
  state : σ
  result : Option Int

/-- The kernel, and where each process that runs the program is. -/
structure Machine (σ : Type) where
  kernel : Task.Kernel
  /-- The processes that run the program. -/
  control : Nat → Option (Control σ)

/-- Who performs an event; the scheduler and the drop of a control block are nobody's. -/
def actor : Task.Event → Option Nat
  | .enter p _ | .leave p | .yield p | .fork p _ | .exit p _ | .schedule p | .waitpid p _ => some p
  | .runTasks _ | .drop _ => none

/-- The children `sys_waitpid` looks for, those with the given pid. -/
def matching (s : Task.Kernel) (p : Nat) (pid : Int) : List Nat :=
  (s.children p).filter fun c => pid = -1 ∨ ((s.pid c).toNat : Int) = pid

/-- `-1` means any child, so that `sys_waitpid` looks for all of them. -/
@[simp] theorem matching_any (s : Task.Kernel) (p : Nat) : matching s p (-1) = s.children p := by
  simp [matching]

/-- What a syscall returns, by the state of the kernel, if its result is not known yet. -/
inductive Returns (s : Task.Kernel) (p : Nat) : Call → Option Int → Int → Prop where
  | result (call : Call) (r : Int) : Returns s p call (some r) r
  /-- There is no such child at all. -/
  | noChild {pid : Int} (hnone : matching s p pid = []) : Returns s p (.waitpid pid) none (-1)
  /-- There is one, but none that has exited. -/
  | again {pid : Int} (hsome : matching s p pid ≠ [])
      (hrunning : ∀ c ∈ matching s p pid, s.status c ≠ .zombie) :
      Returns s p (.waitpid pid) none (-2)
  | yield : Returns s p .yield none 0

variable {σ : Type}

/-- What the process does is up to the program: it is at one of the program's syscalls. -/
def Program.Runs (P : Program σ) (c : Option (Control σ)) : Prop :=
  ∃ c', c = some c' ∧ P.call c'.state ≠ none

/-- A step of the kernel, by a process that is where the program makes it, or by another one
that does anything. -/
inductive Step (P : Program σ) (m : Machine σ) : Task.Event → Machine σ → Prop where
  /-- The scheduler, or a process that does not run the program. -/
  | other {e : Task.Event} {s' : Task.Kernel} (hs : Task.Step m.kernel e s')
      (hfree : ∀ p, actor e = some p → ¬ P.Runs (m.control p)) : Step P m e ⟨s', m.control⟩
  | enter {p : Nat} {st : σ} {call : Call} {s' : Task.Kernel} (hp : m.control p = some ⟨st, none⟩)
      (hcall : P.call st = some call) (hs : Task.Step m.kernel (.enter p call.syscall) s') :
      Step P m (.enter p call.syscall) ⟨s', m.control⟩
  | yield {p : Nat} {st : σ} {s' : Task.Kernel} (hp : m.control p = some ⟨st, none⟩)
      (hcall : P.call st = some .yield) (huser : m.kernel.stack p = [])
      (hs : Task.Step m.kernel (.yield p) s') : Step P m (.yield p) ⟨s', m.control⟩
  | fork {p c : Nat} {st : σ} {s' : Task.Kernel} (hp : m.control p = some ⟨st, none⟩)
      (hcall : P.call st = some .fork) (hs : Task.Step m.kernel (.fork p c) s') :
      Step P m (.fork p c) ⟨s', Function.update
        (Function.update m.control p (some ⟨st, some (s'.pid c).toNat⟩))
        c (some ⟨P.ret st 0, none⟩)⟩
  | waitpid {p c : Nat} {st : σ} {pid : Int} {s' : Task.Kernel} (hp : m.control p = some ⟨st, none⟩)
      (hcall : P.call st = some (.waitpid pid)) (hcur : m.kernel.current = some p)
      (hc : c ∈ matching m.kernel p pid) (hs : Task.Step m.kernel (.waitpid p c) s') :
      Step P m (.waitpid p c) ⟨s', Function.update m.control p
        (some ⟨st, some (m.kernel.pid c).toNat⟩)⟩
  | leave {p : Nat} {st : σ} {result : Option Int} {call : Call} {r : Int} {s' : Task.Kernel}
      (hp : m.control p = some ⟨st, result⟩) (hcall : P.call st = some call)
      (hret : Returns m.kernel p call result r) (hs : Task.Step m.kernel (.leave p) s') :
      Step P m (.leave p) ⟨s', Function.update m.control p (some ⟨P.ret st r, none⟩)⟩
  | exit {p : Nat} {st : σ} {exitCode : Int32} {s' : Task.Kernel}
      (hp : m.control p = some ⟨st, none⟩)
      (hcall : P.call st = some (.exit exitCode)) (hs : Task.Step m.kernel (.exit p exitCode) s') :
      Step P m (.exit p exitCode) ⟨s', m.control⟩
  | schedule {p : Nat} {st : σ} {exitCode : Int32} {s' : Task.Kernel}
      (hp : m.control p = some ⟨st, none⟩) (hcall : P.call st = some (.exit exitCode))
      (hs : Task.Step m.kernel (.schedule p) s') : Step P m (.schedule p) ⟨s', m.control⟩

/-- The program as a transition system, from given states on. -/
def machine (P : Program σ) (init : Machine σ → Prop) : System (Machine σ) Task.Event where
  init := init
  step := Step P

/-- A process of a running system begins with a program. -/
def Begins (root : Nat) (st : σ) (m : Machine σ) : Prop :=
  (∃ tr, Task.processes.Run (Task.boot (some 0)) tr m.kernel) ∧ root < m.kernel.next ∧
    m.kernel.stack root = [] ∧ m.control = Function.update (fun _ => none) root (some ⟨st, none⟩)

/-! ## What the kernel does -/

variable {P : Program σ} {m m' : Machine σ} {s s' : Task.Kernel} {e : Task.Event} {p q c : Nat}
  {tr : List Task.Event}

/-- **Every step is one of the kernel**, whatever the program is. -/
theorem Step.kernel (hs : Step P m e m') : Task.Step m.kernel e m'.kernel := by
  cases hs with
  | other hs | enter _ _ hs | yield _ _ _ hs | fork _ _ hs | waitpid _ _ _ _ hs | leave _ _ _ hs
  | exit _ _ hs | schedule _ _ hs => exact hs

/-- A run of programs is one of the kernel, so that what holds of every run of it holds of these. -/
theorem run_kernel {init : Machine σ → Prop} (hrun : (machine P init).Run m tr m') :
    Task.processes.Run m.kernel tr m'.kernel := by
  refine hrun.history (I := fun tr m' => Task.processes.Run m.kernel tr m'.kernel) (.nil _) ?_
  intro tr m₁ e m₂ h hs
  exact h.snoc (Step.kernel hs)

/-- What is used of the kernel: its invariants, and that initproc is the first process. -/
structure Good (s : Task.Kernel) : Prop where
  inv : Task.Inv s
  kept : Task.Kept s
  initproc : s.initproc = some 0

/-- What is used of the kernel is kept by its steps. -/
theorem Good.step (h : Good s) (hs : Task.Step s e s') : Good s' where
  inv := Task.inv_step h.inv hs
  kept := (Task.Step.kept h.inv h.kept hs).1
  initproc := hs.initproc.trans h.initproc

/-- What is used of the kernel holds at the start, with initproc installed. -/
theorem good_boot : Good (Task.boot (some 0)) where
  inv := Task.inv_boot (.inr rfl)
  kept := Task.kept_boot _
  initproc := rfl

/-- What is used of the kernel holds when a process of a running system begins with a program. -/
theorem Begins.good {root : Nat} {st : σ} (h : Begins root st m) : Good m.kernel := by
  obtain ⟨⟨_, hrun⟩, -⟩ := h
  obtain ⟨hinv, hkept, hacc⟩ := Task.accounted_of_run hrun
  exact ⟨hinv, hkept, hacc.initproc⟩

/-- The pid of a child is its number, and is not zero: a program can tell it from what `fork`
returns to the child. -/
theorem Good.pid_child (h : Good s) (hc : c ∈ s.children q) : (s.pid c).toNat = c ∧ 0 < c := by
  obtain ⟨-, halive, hinit⟩ := h.inv.family.mem q c hc
  refine ⟨h.kept.pid c (h.inv.pids.lt c halive), Nat.pos_of_ne_zero ?_⟩
  rintro rfl
  exact hinit h.initproc

/-- `fork` makes a child with a new number, which is in its parent's list. -/
theorem Good.fork (h : Good s) (hs : Task.Step s (.fork p c) s') :
    c = s.next ∧ p < s.next ∧ c ∈ s'.children p := by
  rcases hs.next (p := c) (by cases hs; exact Nat.lt_succ_self _) with hlt | ⟨q, heq, hmem, -⟩
  · cases hs
    exact absurd hlt (Nat.lt_irrefl _)
  · cases heq
    cases hs with
    | fork hcur _ _ => exact ⟨rfl, h.inv.pids.lt p (h.inv.mem_of_current hcur), hmem⟩

/-- A child stays one until it is reaped or its parent exits. -/
theorem Good.mem_children (h : Good s) (hs : Task.Step s e s') (hc : c ∈ s.children q)
    (hexit : q = 0 ∨ ∀ exitCode, e ≠ .exit q exitCode) (hwait : e ≠ .waitpid q c) :
    c ∈ s'.children q := by
  obtain ⟨-, hold⟩ := hs.children (c := c) (q := q) h.initproc h.inv h.kept
  rcases hold hc with ⟨hc', -⟩ | ⟨p, rfl⟩ | hc'
  · exact hc'
  · cases hs with
    | waitpid _ hp _ =>
      cases h.inv.family.parent p q c hp hc
      exact absurd rfl hwait
  · rcases hexit with rfl | hexit
    · exact hc'
    obtain ⟨hnew, -⟩ := hs.children (c := c) (q := 0) h.initproc h.inv h.kept
    rcases hnew hc' with hc₀ | rfl | ⟨-, p, exitCode, rfl, hp⟩
    · cases h.inv.family.parent 0 q c hc₀ hc
      exact hc'
    · have hlt := h.inv.pids.lt c (h.inv.family.mem q c hc).2.1
      exact absurd (h.fork hs).1 hlt.ne
    · cases h.inv.family.parent p q c hp hc
      exact absurd rfl (hexit exitCode)

/-! ## init.rs -/

/-- Where `main` is. The number is `pid`, the shell that `main` waits for. -/
inductive InitState where
  | fork
  | sh
  | wait (pid : Int)
  | yield (pid : Int)

/-- `main` of `init.rs`, with `wait` of `user/src/lib.rs`: the shell is forked again once it has
been reaped. -/
def initProgram : Program InitState where
  call
    | .fork => some .fork
    | .sh => none
    | .wait _ => some (.waitpid (-1))
    | .yield _ => some .yield
  ret
    | .fork, r => if r = 0 then .sh else .wait r
    | .sh, _ => .sh
    | .wait pid, r => if r = -2 then .yield pid else if r = pid then .fork else .wait pid
    | .yield pid, _ => .wait pid

/-- initproc is about to run `main`, and there is no other process. -/
def initBoot : Machine InitState :=
  ⟨Task.boot (some 0), Function.update (fun _ => none) 0 (some ⟨.fork, none⟩)⟩

/-- initproc beside all other processes, the shells among them, in any interleaving. -/
def initSystem : System (Machine InitState) Task.Event := machine initProgram (· = initBoot)

/-- All shells have been reaped: initproc has reaped whom it has forked. -/
def Idle (tr : List Task.Event) : Prop := ∀ c, .fork 0 c ∈ tr → .waitpid 0 c ∈ tr

/-- The shell is a child of initproc, and all others have been reaped. -/
def Waiting (tr : List Task.Event) (s : Task.Kernel) (pid : Int) : Prop :=
  ∃ c ∈ s.children 0, pid = c ∧ ∀ c', .fork 0 c' ∈ tr → c' ≠ c → .waitpid 0 c' ∈ tr

/-- All shells stay reaped as long as initproc forks no other one. -/
theorem Idle.step (h : Idle tr) (hfork : ∀ c, e ≠ .fork 0 c) : Idle (tr ++ [e]) := by
  intro c hc
  rcases List.mem_append.mp hc with hc | hc
  · exact List.mem_append_left _ (h c hc)
  · exact absurd (List.mem_singleton.mp hc).symm (hfork c)

/-- The shell stays a child of initproc until it is reaped. -/
theorem Waiting.step {pid : Int} (h : Waiting tr s pid) (hgood : Good s) (hs : Task.Step s e s')
    (hfork : ∀ c, e ≠ .fork 0 c) (hwait : ∀ c : Nat, e = .waitpid 0 c → pid ≠ c) :
    Waiting (tr ++ [e]) s' pid := by
  obtain ⟨c, hc, hpid, hrest⟩ := h
  have hc' := hgood.mem_children hs hc (.inl rfl) fun heq => hwait c heq hpid
  refine ⟨c, hc', hpid, fun c' hmem hne => ?_⟩
  rcases List.mem_append.mp hmem with hmem | hmem
  · exact List.mem_append_left _ (hrest c' hmem hne)
  · exact absurd (List.mem_singleton.mp hmem).symm (hfork c')

/-- The pid of the shell is positive, as it is not that of the first process. -/
theorem Waiting.nonneg {pid : Int} (h : Waiting tr s pid) (hgood : Good s) : 0 < pid := by
  obtain ⟨c, hc, rfl, -⟩ := h
  exact Int.natCast_pos.mpr (hgood.pid_child hc).2

/-- What holds where `main` is: there is one shell to wait for, or it has been reaped. -/
inductive At (tr : List Task.Event) (s : Task.Kernel) : Control InitState → Prop where
  | fork (h : Idle tr) : At tr s ⟨.fork, none⟩
  | forked {r : Int} (h : Waiting tr s r) : At tr s ⟨.fork, some r⟩
  | wait {pid : Int} (h : Waiting tr s pid) : At tr s ⟨.wait pid, none⟩
  /-- The shell has been reaped. -/
  | reaped {pid : Int} (h : Idle tr) (hpid : 0 ≤ pid) : At tr s ⟨.wait pid, some pid⟩
  /-- Another process has been reaped. -/
  | adopted {pid r : Int} (h : Waiting tr s pid) (hr : 0 ≤ r) (hne : r ≠ pid) :
      At tr s ⟨.wait pid, some r⟩
  | yield {pid : Int} (h : Waiting tr s pid) : At tr s ⟨.yield pid, none⟩

/-- Somebody else's steps, and those that neither fork nor reap. -/
theorem At.step {x : Control InitState} (h : At tr s x) (hgood : Good s) (hs : Task.Step s e s')
    (hfork : ∀ c, e ≠ .fork 0 c) (hwait : ∀ c, e ≠ .waitpid 0 c) : At (tr ++ [e]) s' x := by
  have hstep : ∀ {pid : Int}, Waiting tr s pid → Waiting (tr ++ [e]) s' pid :=
    fun h => h.step hgood hs hfork fun c heq => absurd heq (hwait c)
  cases h with
  | fork h => exact .fork (h.step hfork)
  | forked h => exact .forked (hstep h)
  | wait h => exact .wait (hstep h)
  | reaped h hpid => exact .reaped (h.step hfork) hpid
  | adopted h hr hne => exact .adopted (hstep h) hr hne
  | yield h => exact .yield (hstep h)

/-- initproc is at a syscall wherever it is, as it does not call `exec` itself. -/
theorem At.runs {x : Control InitState} (h : At tr s x) : initProgram.Runs (some x) := by
  refine ⟨x, rfl, ?_⟩
  cases h <;> nofun

/-- A syscall of initproc returns, and `main` goes on with its result. -/
theorem At.leave {st : InitState} {result : Option Int} {call : Call} {r : Int}
    (h : At tr s ⟨st, result⟩) (hgood : Good s) (hcall : initProgram.call st = some call)
    (hret : Returns s 0 call result r) (hs : Task.Step s (.leave 0) s') :
    At (tr ++ [.leave 0]) s' ⟨initProgram.ret st r, none⟩ := by
  have hstep : ∀ {pid : Int}, Waiting tr s pid → Waiting (tr ++ [.leave 0]) s' pid :=
    fun h => h.step hgood hs (by simp) (by simp)
  cases h with
  | fork h =>
    cases hcall
    cases hret
  | forked h =>
    cases hret
    have hpos := h.nonneg hgood
    rw [show initProgram.ret .fork r = .wait r from if_neg (by omega)]
    exact .wait (hstep h)
  | @wait pid h =>
    cases hcall
    cases hret with
    | noChild hnone =>
      -- the shell is a child
      obtain ⟨c, hc, -⟩ := h
      rw [matching_any] at hnone
      rw [hnone] at hc
      cases hc
    | again =>
      exact .yield (hstep h)
  | reaped h hpid =>
    cases hret
    rw [show initProgram.ret (.wait r) r = .fork from
      (if_neg (by omega)).trans (if_pos rfl)]
    exact .fork (h.step (by simp))
  | @adopted pid _ h hr hne =>
    cases hret
    rw [show initProgram.ret (.wait pid) r = .wait pid from
      (if_neg (by omega)).trans (if_neg hne)]
    exact .wait (hstep h)
  | yield h =>
    cases hcall
    cases hret
    exact .wait (hstep h)

/-- initproc reaps somebody: the shell, or a process that was moved to its list. -/
theorem At.waitpid {st : InitState} {pid : Int} (h : At tr s ⟨st, none⟩) (hgood : Good s)
    (hcall : initProgram.call st = some (.waitpid pid)) (hs : Task.Step s (.waitpid 0 c) s') :
    At (tr ++ [.waitpid 0 c]) s' ⟨st, some (s.pid c).toNat⟩ := by
  have hmem : c ∈ s.children 0 := by
    cases hs with
    | waitpid _ hc _ => exact hc
  rw [(hgood.pid_child hmem).1]
  cases h with
  | fork | yield => cases hcall
  | @wait shell h =>
    by_cases heq : (c : Int) = shell
    · obtain ⟨c', -, hshell, hrest⟩ := h
      have hcc : c' = c := Int.ofNat_inj.mp (hshell.symm.trans heq.symm)
      subst hcc
      rw [← heq]
      refine .reaped (fun c'' hc'' => ?_) (Int.natCast_nonneg c')
      rcases List.mem_append.mp hc'' with hc'' | hc''
      · by_cases hne : c'' = c'
        · exact hne ▸ List.mem_append_right _ (List.mem_singleton_self _)
        · exact List.mem_append_left _ (hrest c'' hc'' hne)
      · cases List.mem_singleton.mp hc''
    · refine .adopted (h.step hgood hs (by simp) fun c' hc' => ?_) (Int.natCast_nonneg c) heq
      cases hc'
      exact Ne.symm heq

/-- initproc forks a shell, and waits for it next: the shell is its child, and all others have
been reaped. -/
theorem At.fork_shell {st : InitState} (h : At tr s ⟨st, none⟩) (hgood : Good s)
    (hcall : initProgram.call st = some .fork) (hs : Task.Step s (.fork 0 c) s') :
    st = .fork ∧ At (tr ++ [.fork 0 c]) s' ⟨st, some (s'.pid c).toNat⟩ := by
  obtain ⟨-, -, hmem⟩ := hgood.fork hs
  rw [((hgood.step hs).pid_child hmem).1]
  cases h with
  | wait | yield => cases hcall
  | fork h =>
    refine ⟨rfl, .forked ⟨c, hmem, rfl, fun c' hc' hne => ?_⟩⟩
    rcases List.mem_append.mp hc' with hc' | hc'
    · exact List.mem_append_left _ (h c' hc')
    · cases List.mem_singleton.mp hc'
      exact absurd rfl hne

/-- initproc runs `main` and has not exited; the others are shells. -/
structure Supervises (tr : List Task.Event) (m : Machine InitState) : Prop where
  good : Good m.kernel
  main : ∃ x, m.control 0 = some x ∧ At tr m.kernel x
  shells : ∀ p x, p ≠ 0 → m.control p = some x → x.state = .sh
  exits : ∀ exitCode, .exit 0 exitCode ∉ tr

section

variable {m m' : Machine InitState}

/-- Only initproc makes the syscalls of `main`, as the shells have called `exec`. -/
theorem Supervises.eq_zero (h : Supervises tr m) {st : InitState} {result : Option Int}
    {call : Call} (hp : m.control p = some ⟨st, result⟩)
    (hcall : initProgram.call st = some call) : p = 0 := by
  by_contra hne
  have hsh : st = .sh := h.shells p _ hne hp
  rw [hsh] at hcall
  cases hcall

/-- What holds where `main` is, for the state initproc is known to be in. -/
theorem Supervises.at_of_control (h : Supervises tr m) {x : Control InitState}
    (hx : m.control 0 = some x) : At tr m.kernel x := by
  obtain ⟨_, hx', hat⟩ := h.main
  cases hx.symm.trans hx'
  exact hat

/-- initproc goes on, and the other processes are where they were. -/
theorem Supervises.update (h : Supervises tr m) {x : Control InitState}
    (hs : Task.Step m.kernel e s') (hat : At (tr ++ [e]) s' x)
    (hexit : ∀ exitCode, e ≠ .exit 0 exitCode) :
    Supervises (tr ++ [e]) ⟨s', Function.update m.control 0 (some x)⟩ where
  good := h.good.step hs
  main := ⟨x, by dsimp only; rw [Function.update_self], hat⟩
  shells p y hp hy := by
    dsimp only at hy
    rw [Function.update_of_ne hp] at hy
    exact h.shells p y hp hy
  exits exitCode hmem := by
    rcases List.mem_append.mp hmem with hmem | hmem
    · exact h.exits exitCode hmem
    · exact hexit exitCode (List.mem_singleton.mp hmem).symm

/-- Nothing happens to `main`: another process, or the scheduler, has made the step. -/
theorem Supervises.stay (h : Supervises tr m) (hs : Task.Step m.kernel e s')
    (hfork : ∀ c, e ≠ .fork 0 c) (hwait : ∀ c, e ≠ .waitpid 0 c)
    (hexit : ∀ exitCode, e ≠ .exit 0 exitCode) : Supervises (tr ++ [e]) ⟨s', m.control⟩ := by
  obtain ⟨x, hx, hat⟩ := h.main
  have hsame : m.control = Function.update m.control 0 (some x) := by
    rw [← hx, Function.update_eq_self]
  rw [hsame]
  exact h.update hs (hat.step h.good hs hfork hwait) hexit

/-- **A step keeps what initproc does**, of initproc or of another process. -/
theorem Step.supervises (h : Supervises tr m) (hs : Step initProgram m e m') :
    Supervises (tr ++ [e]) m' := by
  cases hs with
  | other hs hfree =>
    obtain ⟨x, hx, hat⟩ := h.main
    have hactor : actor e ≠ some 0 := fun heq => hfree 0 heq (hx ▸ hat.runs)
    refine h.stay hs ?_ ?_ ?_ <;>
      · rintro _ rfl
        exact hactor rfl
  | enter hp hcall hs | yield hp hcall _ hs => exact h.stay hs (by simp) (by simp) (by simp)
  | @fork p c st _ hp hcall hs =>
    cases h.eq_zero hp hcall
    obtain ⟨rfl, hat⟩ := (h.at_of_control hp).fork_shell h.good hcall hs
    have hne : c ≠ 0 := by
      obtain ⟨heq, hlt, -⟩ := h.good.fork hs
      omega
    have hmain := h.update hs hat (by simp)
    refine ⟨hmain.good, ?_, fun p x hp hx => ?_, hmain.exits⟩
    · dsimp only
      rw [Function.update_of_ne hne.symm]
      exact hmain.main
    · dsimp only at hx
      by_cases hpc : p = c
      · rw [hpc, Function.update_self] at hx
        cases hx
        rfl
      · rw [Function.update_of_ne hpc] at hx
        exact hmain.shells p x hp hx
  | waitpid hp hcall _ _ hs =>
    cases h.eq_zero hp hcall
    exact h.update hs ((h.at_of_control hp).waitpid h.good hcall hs) (by simp)
  | leave hp hcall hret hs =>
    cases h.eq_zero hp hcall
    exact h.update hs ((h.at_of_control hp).leave h.good hcall hret hs) (by simp)
  | @exit p st _ _ hp hcall _ | @schedule p st _ _ hp hcall _ =>
    cases st <;> cases hcall

/-- At the start initproc has not forked yet, and all shells there are have been reaped. -/
theorem supervises_boot : Supervises [] initBoot where
  good := good_boot
  main := ⟨_, rfl, .fork nofun⟩
  shells p x hp hx := by
    dsimp only [initBoot] at hx
    rw [Function.update_of_ne hp] at hx
    cases hx
  exits := nofun

/-- After every run initproc is where it should be, and has reaped all shells but the one it
waits for. -/
theorem supervises_of_run (hrun : initSystem.Run initBoot tr m) : Supervises tr m :=
  hrun.history (I := Supervises) supervises_boot fun _ _ _ _ h hs => hs.supervises h

/-- Only the last shell need not have been reaped: initproc forks no other before it has reaped
this one. -/
theorem At.last {x : Control InitState} (h : At tr s x) :
    ∃ c, ∀ c', .fork 0 c' ∈ tr → c' ≠ c → .waitpid 0 c' ∈ tr := by
  cases h with
  | fork h | reaped h _ => exact ⟨0, fun c hc _ => h c hc⟩
  | forked h | wait h | adopted h _ _ | yield h =>
    obtain ⟨c, -, -, hrest⟩ := h
    exact ⟨c, hrest⟩

/-- **One shell at a time.** Whatever the other processes do: of two shells that initproc has
forked, one has exited and been reaped. As long as `main` waits, the shell it waits for is a child
of initproc, so `wait` does not return -1 and the inner loop ends with that shell. And initproc has
not exited and is scheduled. -/
theorem run_init (hrun : initSystem.Run initBoot tr m) :
    (∀ c c', .fork 0 c ∈ tr → .fork 0 c' ∈ tr → c ≠ c' → ∃ c'', (c'' = c ∨ c'' = c') ∧
      .waitpid 0 c'' ∈ tr ∧ ∃ exitCode, .exit c'' exitCode ∈ tr) ∧
    (∀ pid, m.control 0 = some ⟨.wait pid, none⟩ →
      ∃ c ∈ m.kernel.children 0, ((m.kernel.pid c).toNat : Int) = pid) ∧
    m.kernel.status 0 ≠ .zombie ∧ 0 ∈ m.kernel.current.toList ++ m.kernel.readyQueue := by
  have h := supervises_of_run hrun
  have hkernel := run_kernel hrun
  obtain ⟨x, -, hat⟩ := h.main
  obtain ⟨-, -, hacc⟩ := Task.accounted_of_run hkernel
  obtain ⟨-, hreaped⟩ := Task.inv_run (.inr rfl) hkernel
  have hrunning : m.kernel.status 0 ≠ .zombie := by
    intro hz
    obtain ⟨exitCode, hmem⟩ := hacc.zombie 0 hz
    exact h.exits exitCode hmem
  have halive : 0 ∈ m.kernel.alive := h.good.inv.initproc 0 h.good.initproc
  refine ⟨fun c c' hc hc' hne => ?_, fun pid hpid => ?_, hrunning,
    h.good.kept.scheduled 0 halive hrunning⟩
  · obtain ⟨last, hlast⟩ := hat.last
    have hexit : ∀ c, .waitpid 0 c ∈ tr → ∃ exitCode, .exit c exitCode ∈ tr :=
      fun c hc => hacc.zombie c (hreaped 0 c hc).zombie
    by_cases heq : c = last
    · have hwait := hlast c' hc' fun heq' => hne (heq.trans heq'.symm)
      exact ⟨c', .inr rfl, hwait, hexit c' hwait⟩
    · have hwait := hlast c hc heq
      exact ⟨c, .inl rfl, hwait, hexit c hwait⟩
  · cases h.at_of_control hpid with
    | wait hw =>
      obtain ⟨c, hc, rfl, -⟩ := hw
      exact ⟨c, hc, congrArg Nat.cast (h.good.pid_child hc).1⟩

end

/-- A shell does anything, as it has called `exec`: the program does not bind its steps. -/
theorem free_shell {m : Machine InitState} {result : Option Int} (he : actor e = some p)
    (hp : m.control p = some ⟨.sh, result⟩) :
    ∀ q, actor e = some q → ¬ initProgram.Runs (m.control q) := by
  rintro q hq ⟨c, hc, hcall⟩
  cases he.symm.trans hq
  rw [hp] at hc
  cases hc
  exact hcall rfl

/-- initproc forks a shell, polls and yields; the shell exits; initproc reaps it and forks the next
one. -/
def shellTrace : List Task.Event :=
  [.runTasks 0, .enter 0 .sysFork, .fork 0 1, .leave 0, .enter 0 .sysWaitpid, .leave 0, .yield 0,
    .runTasks 1, .enter 1 .sysExit, .exit 1 0, .schedule 1, .runTasks 0, .leave 0,
    .enter 0 .sysWaitpid, .waitpid 0 1, .leave 0, .enter 0 .sysFork, .fork 0 2, .leave 0]

/-- The kernel can go through these events, and initproc waits for the second shell at the end. -/
theorem exists_run_shellTrace : ∃ m, initSystem.Run initBoot shellTrace m ∧
    m.control 0 = some ⟨.wait 2, none⟩ := by
  have h₁ := (System.Run.nil (S := initSystem) initBoot).snoc
    (.other (.runTasks rfl rfl) nofun)
  have h₂ := h₁.snoc (.enter (p := 0) rfl rfl (.enter _ rfl rfl nofun))
  have h₃ := h₂.snoc (.fork (p := 0) rfl rfl (.fork rfl rfl (.pidAlloc (by decide))))
  have h₄ := h₃.snoc (.leave (p := 0) rfl rfl (.result _ _) (.leave rfl rfl nofun))
  have h₅ := h₄.snoc (.enter (p := 0) rfl rfl (.enter _ rfl rfl nofun))
  have h₆ := h₅.snoc (.leave (p := 0) rfl rfl (.again (by decide) (by decide))
    (.leave rfl rfl nofun))
  have h₇ := h₆.snoc (.yield (p := 0) rfl rfl rfl (.yield rfl (by decide) (by decide)))
  have h₈ := h₇.snoc (.other (.runTasks rfl rfl) nofun)
  have h₉ := h₈.snoc (.other (.enter (p := 1) .sysExit rfl rfl nofun) (free_shell rfl rfl))
  have h₁₀ := h₉.snoc (.other (.exit (p := 1) 0 rfl rfl nofun) (free_shell rfl rfl))
  have h₁₁ := h₁₀.snoc (.other (.schedule (p := 1) rfl rfl rfl) (free_shell rfl rfl))
  have h₁₂ := h₁₁.snoc (.other (.runTasks rfl rfl) nofun)
  have h₁₃ := h₁₂.snoc (.leave (p := 0) rfl rfl .yield (.leave rfl rfl nofun))
  have h₁₄ := h₁₃.snoc (.enter (p := 0) rfl rfl (.enter _ rfl rfl nofun))
  have h₁₅ := h₁₄.snoc (.waitpid (p := 0) (c := 1) rfl rfl rfl (by decide)
    (.waitpid rfl (by decide) rfl))
  have h₁₆ := h₁₅.snoc (.leave (p := 0) rfl rfl (.result _ _) (.leave rfl rfl nofun))
  have h₁₇ := h₁₆.snoc (.enter (p := 0) rfl rfl (.enter _ rfl rfl nofun))
  have h₁₈ := h₁₇.snoc (.fork (p := 0) rfl rfl (.fork rfl rfl (.pidAlloc (by decide))))
  have h₁₉ := h₁₈.snoc (.leave (p := 0) rfl rfl (.result _ _) (.leave rfl rfl nofun))
  exact ⟨_, h₁₉, rfl⟩

/-- Of its first two shells initproc has reaped one, after it had exited, and waits for the other
one, which is its child. -/
theorem run_init_second : ∃ m, initSystem.Run initBoot shellTrace m ∧
    (∃ c, (c = 1 ∨ c = 2) ∧ .waitpid 0 c ∈ shellTrace ∧
      ∃ exitCode, .exit c exitCode ∈ shellTrace) ∧
    (∃ c ∈ m.kernel.children 0, ((m.kernel.pid c).toNat : Int) = 2) ∧
    0 ∈ m.kernel.current.toList ++ m.kernel.readyQueue := by
  obtain ⟨m, hrun, hwait⟩ := exists_run_shellTrace
  obtain ⟨hone, hchild, -, hsched⟩ := run_init hrun
  exact ⟨m, hrun, hone 1 2 (by decide) (by decide) (by decide), hchild 2 hwait, hsched⟩

end TinyOS.User
