import TinyOS.Task.Switch

/-!
# Which frame a task is resumed from

The kernel of `phase_2_proc` as a transition system: the user code of the current task, its traps,
the handler, and the switches of `suspend_current_and_run_next`, `exit_current_and_run_next` and
`run_first_task` (`task/mod.rs`). The code of the handler between its entry, its calls of `__switch`
and its return is compiled Rust and is not embedded; it is held to what its signature and the
calling convention say: `trap_handler` returns its argument, also when a switch came in between.

`__restore` takes the frame from `a0`. After `trap_handler` that is the handler's return value; on a
first start, where `__switch` returns straight to `__restore`, it is still the first argument of
`__switch`, a `TaskContext`. `resumed_own_iff` draws the line: a run resumes every task from its own
frame if and only if it starts no task.
-/

namespace TinyOS

open Memory Riscv Transition

/-! ## The image -/

/-- `APP_BASE_ADDRESS`, where the first application is loaded, as an address of the machine. -/
def appBaseAddress : Word := 0x80400000

/-- `APP_SIZE_LIMIT`, the distance between two applications, as a word of the machine. -/
def appSizeLimit : Word := 0x20000

/-- `get_base_i`: where application `i` is loaded, and its entry point. -/
def getBaseI (i : Nat) : Word := appBaseAddress + BitVec.ofNat 64 i * appSizeLimit

/-- `enum TaskStatus` of `phase_2_proc`, the states a task can be in. -/
inductive TaskStatus where
  | unInit
  | ready
  | running
  | exited
  deriving DecidableEq

/-- A kernel image with `n` loaded apps: where `__restore`, the task contexts of `TASK_MANAGER`, the
context `unused` of `run_first_task` and the stacks are. These are separate Rust objects, so the
contexts, the trap frames at the tops of the kernel stacks and `unused` do not overlap. -/
structure Image (n : Nat) where
  restoreAddr : Word
  cx : Fin n → Addr
  unused : Addr
  kstackTop : Fin n → Word
  ustackTop : Fin n → Word
  cx_cx : ∀ i j, i ≠ j → Apart (cx i) TaskContext.size (cx j) TaskContext.size
  frame_cx : ∀ i j, Apart (frameBelow (kstackTop i)) TrapContext.size (cx j) TaskContext.size
  unused_frame : ∀ j, Apart unused TaskContext.size (frameBelow (kstackTop j)) TrapContext.size
  unused_cx : ∀ j, Apart unused TaskContext.size (cx j) TaskContext.size

variable {n : Nat} {img : Image n}

/-- One iteration of the `TASK_MANAGER` initialiser: the first trap frame of task `i` on top of its
kernel stack, and a task context that points at it. -/
def initTask (img : Image n) (m : Mem) (i : Fin n) : Mem :=
  let trapCxPtr := frameBelow (img.kstackTop i)
  let m := TrapContext.store m trapCxPtr
    (TrapContext.appInitContext (getBaseI i) (img.ustackTop i))
  TaskContext.store m (img.cx i) (TaskContext.gotoRestore img.restoreAddr trapCxPtr)

/-- The memory the `TASK_MANAGER` initialiser leaves: the first frame and the context of every
task. -/
def initTasks (img : Image n) (m : Mem) : Mem := (List.finRange n).foldl (initTask img) m

/-! ## The transition system -/

/-- What the hart is doing. `kernel i cx` is inside `trap_handler(cx)` on the kernel stack of task
`i`. -/
inductive Cpu (n : Nat) where
  | boot
  | user (i : Fin n)
  | kernel (i : Fin n) (cx : Addr)

/-- The state of the kernel. `cont i` is the argument of the `trap_handler` call that task `i` will
return from when it is switched back to. -/
structure Kernel (n : Nat) where
  hart : Machine
  cpu : Cpu n
  status : Fin n → TaskStatus
  cont : Fin n → Addr

/-- A step either runs `__restore` or does not. `restore i first entry`: `__restore` is entered in
state `entry` to resume task `i`; `first` if it is reached from `__switch`, by a task that has not
run before. -/
inductive KernelEvent (n : Nat) where
  | quiet
  | restore (i : Fin n) (first : Bool) (entry : Machine)

/-- The step starts a task that has not run before. -/
def KernelEvent.isFirst : KernelEvent n → Bool
  | .quiet => false
  | .restore _ first _ => first

/-- Code that runs without switching does not write the task contexts. -/
def KeepsContexts (img : Image n) (m m' : Machine) : Prop :=
  ∀ i k, k < TaskContext.size →
    m'.mem (img.cx i + BitVec.ofNat 64 k) = m.mem (img.cx i + BitVec.ofNat 64 k)

/-- The steps of the kernel: the first start, switches between tasks, traps, and what the tasks
themselves do. -/
inductive KernelStep (img : Image n) : Kernel n → KernelEvent n → Kernel n → Prop where
  /-- User code runs. It cannot write `sscratch`. -/
  | user {s : Kernel n} {i : Fin n} {m : Machine} (hc : s.cpu = .user i)
      (hsc : m.csr .sscratch = s.hart.csr .sscratch) (hk : KeepsContexts img s.hart m) :
      KernelStep img s .quiet { s with hart := m }
  /-- User code traps. -/
  | trap {s : Kernel n} {i : Fin n} (hc : s.cpu = .user i) :
      KernelStep img s .quiet { s with
        hart := run (alltraps img.restoreAddr) s.hart
        cpu := .kernel i ((run (alltraps img.restoreAddr) s.hart).get .a0) }
  /-- The handler runs. -/
  | work {s : Kernel n} {i : Fin n} {cx : Addr} {m : Machine} (hc : s.cpu = .kernel i cx)
      (hk : KeepsContexts img s.hart m) : KernelStep img s .quiet { s with hart := m }
  /-- The handler returns its argument, and `__restore` follows. -/
  | ret {s : Kernel n} {i : Fin n} {cx : Addr} (hc : s.cpu = .kernel i cx)
      (ha : s.hart.get .a0 = cx) :
      KernelStep img s (.restore i false s.hart)
        { s with hart := run restore s.hart, cpu := .user i }
  /-- The current task yields or exits, and `__switch` returns into a task that was switched out
  inside its own `trap_handler`. -/
  | resume {s : Kernel n} {i j : Fin n} {cx : Addr} {out : TaskStatus} (hc : s.cpu = .kernel i cx)
      (hout : out = .ready ∨ out = .exited) (hj : Function.update s.status i out j = .ready)
      (ha0 : s.hart.get .a0 = img.cx i) (ha1 : s.hart.get .a1 = img.cx j)
      (hret : s.hart.get .ra ≠ img.restoreAddr)
      (hra : (run switch s.hart).get .ra ≠ img.restoreAddr) :
      KernelStep img s .quiet
        { hart := run switch s.hart
          cpu := .kernel j (Function.update s.cont i cx j)
          status := Function.update (Function.update s.status i out) j .running
          cont := Function.update s.cont i cx }
  /-- The current task yields or exits, and `__switch` returns to `__restore`. -/
  | start {s : Kernel n} {i j : Fin n} {cx : Addr} {out : TaskStatus} (hc : s.cpu = .kernel i cx)
      (hout : out = .ready ∨ out = .exited) (hj : Function.update s.status i out j = .ready)
      (ha0 : s.hart.get .a0 = img.cx i) (ha1 : s.hart.get .a1 = img.cx j)
      (hret : s.hart.get .ra ≠ img.restoreAddr)
      (hra : (run switch s.hart).get .ra = img.restoreAddr) :
      KernelStep img s (.restore j true (run switch s.hart))
        { hart := run restore (run switch s.hart)
          cpu := .user j
          status := Function.update (Function.update s.status i out) j .running
          cont := Function.update s.cont i cx }
  /-- `run_first_task`: `__switch` from `unused` to task 0. -/
  | first {s : Kernel n} {i : Fin n} (hc : s.cpu = .boot) (hi : i.val = 0)
      (ha0 : s.hart.get .a0 = img.unused) (ha1 : s.hart.get .a1 = img.cx i)
      (hra : (run switch s.hart).get .ra = img.restoreAddr) :
      KernelStep img s (.restore i true (run switch s.hart))
        { s with
          hart := run restore (run switch s.hart)
          cpu := .user i
          status := Function.update s.status i .running }

/-- The state in which `rust_main` calls `run_first_task`, with the memory the initialiser has
left. -/
structure Booted (img : Image n) (s : Kernel n) : Prop where
  cpu : s.cpu = .boot
  mem : ∃ m, s.hart.mem = initTasks img m
  status : ∀ i, s.status i = .ready

/-- The kernel of an image, from the call of `run_first_task` on. -/
def kernelSystem (img : Image n) : System (Kernel n) (KernelEvent n) where
  init := Booted img
  step := KernelStep img

/-! ## The property -/

/-- What a task is to find when it is entered for the first time. -/
structure FreshUser (img : Image n) (i : Fin n) (m : Machine) : Prop where
  sepc : m.csr .sepc = getBaseI i
  sp : m.get .sp = img.ustackTop i
  x : ∀ r : Reg, r ≠ .sp → r ≠ .tp → m.get r = 0
  sscratch : m.csr .sscratch = img.kstackTop i

/-- Where `__restore` runs for task `i`, it loads from the trap frame on the kernel stack of task
`i`; if this is the first time, it leaves the context the initialiser built. -/
def Own (img : Image n) : KernelEvent n → Prop
  | .quiet => True
  | .restore i first entry =>
    entry.get .a0 = frameBelow (img.kstackTop i) ∧
      (first = true → FreshUser img i (run restore entry))

/-! ## First starts -/

/-- **A first start never finds its frame.** `a0` still holds the first argument of `__switch`, the
context that was switched away from. -/
theorem KernelStep.not_own_of_first {s s' : Kernel n} {e : KernelEvent n}
    (h : KernelStep img s e s') (he : e.isFirst = true) : ¬ Own img e := by
  cases h with
  | user | trap | work | resume => cases he
  | ret => cases he
  | @start i j cx out hc hout hj ha0 ha1 hret hra =>
    rintro ⟨hown, -⟩
    rw [(run_switch s.hart).2.2.2, ha0] at hown
    exact (img.frame_cx j i).ne (by decide) hown.symm
  | @first i hc hi ha0 ha1 hra =>
    rintro ⟨hown, -⟩
    rw [(run_switch s.hart).2.2.2, ha0] at hown
    exact (img.unused_frame i).ne (by decide) hown

/-! ## The invariant of the other steps -/

/-- The tasks that have run are where they should be: in user mode with their own kernel stack top
in `sscratch`, in the kernel with their own frame, and switched out inside a `trap_handler` call
with their own frame. -/
structure Good (img : Image n) (s : Kernel n) : Prop where
  user : ∀ i, s.cpu = .user i → s.hart.csr .sscratch = img.kstackTop i
  kernel : ∀ i cx, s.cpu = .kernel i cx → cx = frameBelow (img.kstackTop i)
  cont : ∀ j, s.status j = .ready → TaskContext.loadRa s.hart.mem (img.cx j) ≠ img.restoreAddr →
    s.cont j = frameBelow (img.kstackTop j)

/-- Code that keeps the contexts keeps their return addresses, and so where a first switch leads. -/
theorem KeepsContexts.loadRa {m m' : Machine} (h : KeepsContexts img m m') (j : Fin n) :
    TaskContext.loadRa m'.mem (img.cx j) = TaskContext.loadRa m.mem (img.cx j) :=
  TaskContext.loadRa_congr fun k hk => h j k hk

/-- The trap entry of a task in user mode keeps the contexts. -/
theorem keepsContexts_alltraps {s : Kernel n} {i : Fin n}
    (hsc : s.hart.csr .sscratch = img.kstackTop i) :
    KeepsContexts img s.hart (run (alltraps img.restoreAddr) s.hart) := by
  intro j k hk
  refine (alltraps_entered _ s.hart).outside _ ?_
  rw [frame, hsc]
  exact (img.frame_cx i j).le_byte hk

/-- `__switch` out of task `i` keeps the contexts of the other tasks. -/
theorem loadRa_run_switch {s : Kernel n} {i j : Fin n} (ha0 : s.hart.get .a0 = img.cx i)
    (hij : i ≠ j) :
    TaskContext.loadRa (run switch s.hart).mem (img.cx j) =
      TaskContext.loadRa s.hart.mem (img.cx j) := by
  refine TaskContext.loadRa_congr fun k hk => (run_switch s.hart).2.1 _ ?_
  rw [ha0]
  exact (img.cx_cx i j hij).le_byte hk

/-- Every step but a first start keeps the invariant and resumes a task from its own frame. -/
theorem Good.step {s s' : Kernel n} {e : KernelEvent n} (h : Good img s)
    (hs : KernelStep img s e s') (he : e.isFirst = false) : Good img s' ∧ Own img e := by
  cases hs with
  | @user i m hc hsc hk =>
    refine ⟨⟨fun j hj => hsc.trans (h.user j hj), h.kernel, fun j hj hra => h.cont j hj ?_⟩,
      trivial⟩
    rwa [hk.loadRa j] at hra
  | @trap i hc =>
    have hk := keepsContexts_alltraps (h.user i hc)
    refine ⟨⟨(by rintro j ⟨⟩), fun j cx hj => ?_, fun j hj hra => h.cont j hj ?_⟩,
      trivial⟩
    · obtain ⟨hij, hcx⟩ := Cpu.kernel.inj hj
      rw [← hcx, (alltraps_entered _ s.hart).a0, frame, h.user i hc, hij]
    · rwa [hk.loadRa j] at hra
  | @work i cx m hc hk =>
    refine ⟨⟨fun j hj => ?_, h.kernel, fun j hj hra => h.cont j hj ?_⟩, trivial⟩
    · cases hc.symm.trans hj
    · rwa [hk.loadRa j] at hra
  | @ret i cx hc ha =>
    have hcx := h.kernel i cx hc
    have hb := restore_restored s.hart
    refine ⟨⟨fun j hj => ?_, (by rintro j cx ⟨⟩), fun j hj hra => h.cont j hj ?_⟩,
      ha.trans hcx, by rintro ⟨⟩⟩
    · injection hj with hij
      rw [hb.sscratch, ha, hcx, frameBelow_add_size, hij]
    · rwa [hb.mem] at hra
  | @resume i j cx out hc hout hj ha0 ha1 hret hra =>
    have hcx := h.kernel i cx hc
    refine ⟨⟨(by rintro k ⟨⟩), fun k cx' hk => ?_, fun k hk hrak => ?_⟩, trivial⟩
    · injection hk with hjk hcx'
      subst hjk
      rw [← hcx']
      by_cases hij : j = i
      · rw [hij, Function.update_self, hcx]
      · -- the task switched to was switched out earlier, and its context is still as it was then
        rw [Function.update_of_ne hij] at hj ⊢
        refine h.cont j hj fun hrest => hra ?_
        rw [(run_switch s.hart).2.2.1, ha1, loadRa_run_switch ha0 (Ne.symm hij), hrest]
    · dsimp only at hk hrak ⊢
      by_cases hki : k = i
      · rw [hki, Function.update_self, hcx]
      · have hkj : k ≠ j := fun hkj => by simp [hkj] at hk
        rw [Function.update_of_ne hkj, Function.update_of_ne hki] at hk
        rw [loadRa_run_switch ha0 (Ne.symm hki)] at hrak
        rw [Function.update_of_ne hki]
        exact h.cont k hk hrak
  | start => cases he
  | first => cases he

/-! ## The state at boot -/

/-- The iterations for other tasks keep a task's context, as no two of them overlap. -/
theorem loadRa_foldl_of_not_mem {j : Fin n} (l : List (Fin n)) (m : Mem) (hj : j ∉ l) :
    TaskContext.loadRa (l.foldl (initTask img) m) (img.cx j) =
      TaskContext.loadRa m (img.cx j) := by
  induction l generalizing m with
  | nil => rfl
  | cons i l ih =>
    rw [List.mem_cons, not_or] at hj
    rw [List.foldl_cons, ih _ hj.2]
    refine TaskContext.loadRa_congr fun k hk => ?_
    rw [initTask, TaskContext.store,
      storeWords_of_outside _ _ (by decide) ((img.cx_cx i j (Ne.symm hj.1)).le_byte hk),
      TrapContext.store,
      storeWords_of_outside _ _ (by decide) ((img.frame_cx i j).le_byte hk)]

/-- The initialiser leaves every task's context pointing at `__restore`, which a first switch
returns to. -/
theorem loadRa_initTasks (m : Mem) (j : Fin n) :
    TaskContext.loadRa (initTasks img m) (img.cx j) = img.restoreAddr := by
  have h : ∀ (l : List (Fin n)) (m : Mem), j ∈ l → l.Nodup →
      TaskContext.loadRa (l.foldl (initTask img) m) (img.cx j) = img.restoreAddr := by
    intro l
    induction l with
    | nil => intro m hj; cases hj
    | cons i l ih =>
      intro m hj hnd
      rw [List.nodup_cons] at hnd
      rcases List.mem_cons.mp hj with rfl | hj
      · rw [List.foldl_cons, loadRa_foldl_of_not_mem l _ hnd.1, initTask, TaskContext.loadRa_store]
        rfl
      · exact ih _ hj hnd.2
  exact h _ m (List.mem_finRange j) (List.nodup_finRange n)

/-- A booted kernel satisfies the invariant: no task has run yet, and every context leads to
`__restore`. -/
theorem Booted.good {s : Kernel n} (h : Booted img s) : Good img s := by
  refine ⟨fun i hi => ?_, fun i cx hi => ?_, fun j _ hra => ?_⟩
  · rw [h.cpu] at hi; cases hi
  · rw [h.cpu] at hi; cases hi
  · obtain ⟨m, hm⟩ := h.mem
    rw [hm, loadRa_initTasks] at hra
    exact absurd rfl hra

/-- The only step from boot is the first start of task 0. -/
theorem KernelStep.isFirst_of_boot {s s' : Kernel n} {e : KernelEvent n} (h : s.cpu = .boot)
    (hs : KernelStep img s e s') : e.isFirst = true := by
  cases hs with
  | first => rfl
  | user hc | trap hc | work hc | ret hc | resume hc | start hc => rw [h] at hc; cases hc

/-- At boot, `__switch` from `unused` returns to `__restore`, with the registers of the boot
code. -/
theorem Booted.ra_run_switch {s : Kernel n} {i : Fin n} (h : Booted img s)
    (ha0 : s.hart.get .a0 = img.unused) (ha1 : s.hart.get .a1 = img.cx i) :
    (run switch s.hart).get .ra = img.restoreAddr := by
  obtain ⟨m, hm⟩ := h.mem
  rw [(run_switch s.hart).2.2.1, ha1, ← loadRa_initTasks m i, ← hm]
  refine TaskContext.loadRa_congr fun k hk => (run_switch s.hart).2.1 _ ?_
  rw [ha0]
  exact (img.unused_cx i).le_byte hk

/-- A run from boot does nothing or starts a task. -/
theorem exists_isFirst_of_booted {s s' : Kernel n} {tr : List (KernelEvent n)} (h : Booted img s)
    (hrun : (kernelSystem img).Run s tr s') : tr = [] ∨ ∃ e ∈ tr, e.isFirst = true := by
  suffices (tr = [] ∧ s'.cpu = .boot) ∨ ∃ e ∈ tr, e.isFirst = true from this.imp_left And.left
  refine hrun.history (I := fun tr s' =>
    (tr = [] ∧ s'.cpu = .boot) ∨ ∃ e ∈ tr, e.isFirst = true) (.inl ⟨rfl, h.cpu⟩) ?_
  rintro tr t e t' (⟨-, hboot⟩ | ⟨e', he', hfirst⟩) hstep
  · exact .inr ⟨e, by simp, KernelStep.isFirst_of_boot hboot hstep⟩
  · exact .inr ⟨e', List.mem_append_left _ he', hfirst⟩

/-! ## Whole runs -/

/-- A run without a first start resumes every task from its own frame. -/
theorem Good.run {s s' : Kernel n} {tr : List (KernelEvent n)} (h : Good img s)
    (hrun : (kernelSystem img).Run s tr s') (hfirst : ∀ e ∈ tr, e.isFirst = false) :
    ∀ e ∈ tr, Own img e := by
  suffices (∀ e ∈ tr, e.isFirst = false) → Good img s' ∧ ∀ e ∈ tr, Own img e from (this hfirst).2
  refine hrun.history (I := fun tr s' =>
    (∀ e ∈ tr, e.isFirst = false) → Good img s' ∧ ∀ e ∈ tr, Own img e) (fun _ => ⟨h, by simp⟩) ?_
  intro tr t e t' ih hstep hno
  obtain ⟨hgood, hown⟩ := ih fun e' he' => hno e' (List.mem_append_left _ he')
  obtain ⟨hgood', hown'⟩ := hgood.step hstep (hno e (by simp))
  refine ⟨hgood', fun e' he' => ?_⟩
  rcases List.mem_append.mp he' with he' | he'
  · exact hown e' he'
  · rw [List.mem_singleton.mp he']
    exact hown'

/-- No first start of a run finds its frame: `a0` is the outgoing context there, and not the
frame. -/
theorem not_own_of_run {s s' : Kernel n} {tr : List (KernelEvent n)}
    (hrun : (kernelSystem img).Run s tr s') : ∀ e ∈ tr, e.isFirst = true → ¬ Own img e := by
  refine hrun.history (I := fun tr _ => ∀ e ∈ tr, e.isFirst = true → ¬ Own img e) (by simp) ?_
  intro tr t e t' ih hstep e' he' hfirst
  rcases List.mem_append.mp he' with he' | he'
  · exact ih e' he' hfirst
  · rw [List.mem_singleton.mp he'] at hfirst ⊢
    exact KernelStep.not_own_of_first hstep hfirst

/-- **A run resumes every task from its own frame exactly if it starts no task.** From boot, where
the only step is the first start of task 0, that is the run without steps. -/
theorem resumed_own_iff {s s' : Kernel n} {tr : List (KernelEvent n)} (h : Good img s)
    (hrun : (kernelSystem img).Run s tr s') :
    ((∀ e ∈ tr, Own img e) ↔ ∀ e ∈ tr, e.isFirst = false) ∧
      (Booted img s → ((∀ e ∈ tr, Own img e) ↔ tr = [])) := by
  have hno : (∀ e ∈ tr, Own img e) → ∀ e ∈ tr, e.isFirst = false := by
    intro hown e he
    rw [Bool.eq_false_iff]
    exact fun hfirst => not_own_of_run hrun e he hfirst (hown e he)
  refine ⟨⟨hno, h.run hrun⟩, fun hboot => ⟨fun hown => ?_, fun htr => by simp [htr]⟩⟩
  rcases exists_isFirst_of_booted hboot hrun with htr | ⟨e, he, hfirst⟩
  · exact htr
  · rw [hno hown e he] at hfirst
    cases hfirst

/-! ## One app -/

/-- An image with one app, laid out as the linker script and `config.rs` lay it out. -/
def oneApp : Image 1 where
  restoreAddr := 0x80200100
  cx _ := 0x80230000
  unused := 0x80220000
  kstackTop _ := 0x80242000
  ustackTop _ := 0x80252000
  cx_cx i j hij := absurd (Subsingleton.elim i j) hij
  frame_cx _ _ := by decide
  unused_frame _ := by decide
  unused_cx _ := by decide

/-- `rust_main` calls `run_first_task`: `a0` and `a1` are the arguments of its `__switch`. -/
def oneAppBoot : Kernel 1 where
  hart :=
    { x := Function.update (Function.update (fun _ => 0) .a0 oneApp.unused) .a1 (oneApp.cx 0)
      csr := fun _ => 0
      mem := initTasks oneApp fun _ => 0 }
  cpu := .boot
  status _ := .ready
  cont _ := 0

/-- The sample kernel with one application is a booted one. -/
theorem oneAppBoot_booted : Booted oneApp oneAppBoot := ⟨rfl, ⟨_, rfl⟩, fun _ => rfl⟩

/-- **The first task of a booted kernel is not resumed from its own frame.** It reaches `sret` with
`sscratch` just above 272 bytes of `unused` and what follows it. -/
theorem oneAppBoot_not_own :
    Booted oneApp oneAppBoot ∧
      (∃ s', (kernelSystem oneApp).Run oneAppBoot
        [.restore 0 true (run switch oneAppBoot.hart)] s') ∧
      ¬ Own oneApp (.restore 0 true (run switch oneAppBoot.hart)) ∧
      (run restore (run switch oneAppBoot.hart)).csr .sscratch = oneApp.unused + 272 ∧
      oneApp.unused + 272 ≠ oneApp.kstackTop 0 := by
  have hstep : KernelStep oneApp oneAppBoot _ _ := .first (i := 0) rfl rfl rfl rfl
    (oneAppBoot_booted.ra_run_switch (i := 0) rfl rfl)
  refine ⟨oneAppBoot_booted, ⟨_, System.Run.snoc (.nil _) hstep⟩,
    hstep.not_own_of_first rfl, ?_, by decide⟩
  rw [(restore_restored _).sscratch, (run_switch _).2.2.2]
  rfl

/-- Task 0 in user mode, on its own kernel stack. -/
def oneAppUser : Kernel 1 where
  hart := { x := fun _ => 0, csr := fun _ => oneApp.kstackTop 0, mem := fun _ => 0 }
  cpu := .user 0
  status _ := .running
  cont _ := 0

/-- A trap of a task that runs on its own kernel stack returns through its own frame. -/
theorem resumed_own_iff_trap :
    let m := run (alltraps oneApp.restoreAddr) oneAppUser.hart
    ∀ e ∈ [KernelEvent.quiet, .restore (0 : Fin 1) false m], Own oneApp e := by
  have hgood : Good oneApp oneAppUser := by
    refine ⟨fun i _ => ?_, (by rintro i cx ⟨⟩), (by rintro j ⟨⟩)⟩
    rw [Subsingleton.elim i 0]
    rfl
  have htrap : KernelStep oneApp oneAppUser _ _ := .trap (i := 0) rfl
  have hret : KernelStep oneApp _ (.restore 0 false _) _ := .ret (s := { oneAppUser with
    hart := run (alltraps oneApp.restoreAddr) oneAppUser.hart
    cpu := .kernel 0 ((run (alltraps oneApp.restoreAddr) oneAppUser.hart).get .a0) }) rfl rfl
  have hrun : (kernelSystem oneApp).Run oneAppUser _ _ := ((System.Run.nil _).snoc htrap).snoc hret
  exact (resumed_own_iff hgood hrun).1.mpr (by simp [KernelEvent.isFirst])

end TinyOS
