import TinyOS.Task.Process

/-!
# Turns, parents and exit codes

What the kernel of `TinyOS.Task.Process` guarantees to its processes over whole runs.

The ready queue is first in, first out: what `run_tasks` takes from it is what `sys_yield` and
`sys_fork` have put there, in this order (`run_turns`). No process is lost: as long as it has not
exited it is the current task or in the queue, and once it has, the local `task` of `sys_exit`
keeps its control block. So no control block is ever dropped, and the pids are handed out in
order (`run_kept`). Both together make the scheduler a round robin (`run_rounds`). A process that
has exited stays with its parent, or with initproc if the parent has exited, until it is reaped,
once and with its exit code (`run_reaped`).
-/

namespace TinyOS.Task

open Transition

variable {s s' t : Kernel} {e : Event} {tr tr' : List Event} {p q c : Nat} {code : Int32}

/-! ## The ready queue -/

/-- The processes `run_tasks` has switched to, in the order of their turns. -/
def ran (tr : List Event) : List Nat :=
  tr.filterMap fun
    | .runTasks p => some p
    | _ => none

/-- The processes that have been put into the ready queue. -/
def queued (tr : List Event) : List Nat :=
  tr.filterMap fun
    | .yield p => some p
    | .fork _ c => some c
    | _ => none

/-- A step takes from the front of the queue and adds at its end. -/
theorem Step.readyQueue (hs : Step s e s') :
    s.readyQueue ++ queued [e] = ran [e] ++ s'.readyQueue := by
  cases hs with
  | runTasks _ hqueue =>
    rw [hqueue]
    exact List.append_nil _
  | yield _ _ _ =>
    rw [Kernel.sysYield_eq]
    rfl
  | fork _ _ _ => rfl
  | schedule _ _ hstatus =>
    rw [Kernel.schedule_eq hstatus]
    exact List.append_nil _
  | exit _ _ _ _ =>
    rw [Kernel.sysExit, Kernel.reparentToInit]
    split <;> exact List.append_nil _
  | enter | leave | waitpid | drop => exact List.append_nil _

/-- Over a run, those in the queue at the start and those put into it have run, in this order,
or are in the queue still. -/
theorem run_readyQueue (hrun : processes.Run s tr s') :
    s.readyQueue ++ queued tr = ran tr ++ s'.readyQueue := by
  refine hrun.history (I := fun tr s' => s.readyQueue ++ queued tr = ran tr ++ s'.readyQueue)
    (List.append_nil _) ?_
  intro tr t e u ih hs
  have hstep := Step.readyQueue hs
  rw [queued, ran] at ih hstep ⊢
  rw [List.filterMap_append, List.filterMap_append, ← List.append_assoc, ih, List.append_assoc,
    List.append_assoc, hstep]

/-- Nobody jumps the queue. A process in the ready queue gets its turn right after those before
it: in any continuation `run_tasks` has switched to some of these only, or to all of them in this
order and then to it. -/
theorem run_turns {l r : List Nat} (hqueue : s.readyQueue = l ++ p :: r)
    (hrun : processes.Run s tr s') : ran tr <+: l ∨ l ++ [p] <+: ran tr := by
  have heq := run_readyQueue hrun
  have hran : ran tr <+: s.readyQueue ++ queued tr := ⟨_, heq.symm⟩
  have hturn : l ++ [p] <+: s.readyQueue ++ queued tr :=
    ⟨r ++ queued tr, by rw [hqueue]; simp⟩
  rcases List.prefix_or_prefix_of_prefix hran hturn with h | h
  · rcases List.prefix_concat_iff.mp h with h | h
    · exact .inr (h ▸ List.prefix_rfl)
    · exact .inl h
  · exact .inr h

/-! ## Nobody is lost -/

/-- Every control block there ever was, with its number as its pid; the processes that have not
exited are the current task and the ready queue. -/
structure Kept (s : Kernel) : Prop where
  alive : ∀ p < s.next, p ∈ s.alive
  scheduled : ∀ p ∈ s.alive, s.status p ≠ .zombie → p ∈ s.current.toList ++ s.readyQueue
  pid : ∀ p < s.next, (s.pid p).toNat = p
  recycled : s.handles.allocator.recycled = []
  current : s.handles.allocator.current.toNat = s.next

/-- At the start there is one process, and it is in the ready queue. -/
theorem kept_boot (initproc : Option Nat) : Kept (boot initproc) where
  alive p hp := by
    rw [Nat.lt_one_iff.mp hp]
    exact List.mem_singleton_self 0
  scheduled _ hp _ := hp
  pid p hp := (Nat.lt_one_iff.mp hp).symm
  recycled := rfl
  current := rfl

/-- A control block is referred to: that of a zombie by its kernel stack. -/
theorem Kept.strong_pos (h : Kept s) (hinv : Inv s) (hp : p ∈ s.alive) : s.strong p ≠ 0 := by
  intro hzero
  obtain ⟨hready, hcurrent, -, -, hstack⟩ := not_mem_of_strong_eq_zero hp hzero
  have hz : s.status p ≠ .zombie := hinv.scheduled.not_zombie (by rw [hstack]; nofun)
  rcases List.mem_append.mp (h.scheduled p hp hz) with hmem | hmem
  · exact hcurrent (Option.mem_toList.mp hmem)
  · exact hready hmem

/-- The pid of a child is the next number, as no number has been given back yet. -/
theorem Kept.fork (h : Kept s) (hinv : Inv s) {pid : UInt64} {handles : Handles}
    (halloc : s.handles.Step (.pidAlloc pid) handles) : Kept (s.sysFork p pid handles) := by
  obtain ⟨hpid, hcurrent, hrecycled⟩ : pid.toNat = s.next ∧
      handles.allocator.current.toNat = s.next + 1 ∧ handles.allocator.recycled = [] := by
    have hcurrent := h.current
    rcases Handles.step_cases hinv.pids.compact halloc with ⟨_, heq, -⟩ | ⟨_, -, -, -, hrec⟩ |
      ⟨heq, hnext, -, -, hrec⟩
    · cases heq
    · rw [h.recycled] at hrec
      cases hrec
    · cases heq
      exact ⟨hcurrent, by omega, hrec⟩
  refine ⟨fun q hq => ?_, fun q hq hz => ?_, fun q hq => ?_, hrecycled, hcurrent⟩
  · rcases Nat.lt_succ_iff_lt_or_eq.mp hq with hq | rfl
    · exact List.mem_cons_of_mem _ (h.alive q hq)
    · exact List.mem_cons_self ..
  · simp only [Kernel.sysFork, Kernel.addTask] at hq hz ⊢
    rw [← List.append_assoc, List.mem_append, List.mem_singleton]
    rcases List.mem_cons.mp hq with rfl | hq
    · exact .inr rfl
    · left
      refine h.scheduled q hq ?_
      have hne : q ≠ s.next := (hinv.pids.lt q hq).ne
      rwa [Function.update_of_ne hne] at hz
  · simp only [Kernel.sysFork, Kernel.addTask]
    rcases Nat.lt_succ_iff_lt_or_eq.mp hq with hq | rfl
    · rw [Function.update_of_ne hq.ne]
      exact h.pid q hq
    · rw [Function.update_self]
      exact hpid

/-- The processes and the pids stay, the scheduler changes: who has not exited is current or in
the queue again. -/
theorem Kept.of_scheduler (h : Kept s) (halive : s'.alive = s.alive) (hnext : s'.next = s.next)
    (hpid : s'.pid = s.pid) (hhandles : s'.handles = s.handles)
    (hsched : ∀ p ∈ s.alive, s'.status p ≠ .zombie → p ∈ s'.current.toList ++ s'.readyQueue) :
    Kept s' := by
  refine ⟨?_, ?_, ?_, ?_, ?_⟩
  · rw [halive, hnext]
    exact h.alive
  · rw [halive]
    exact hsched
  · rw [hnext, hpid]
    exact h.pid
  · rw [hhandles]
    exact h.recycled
  · rw [hhandles, hnext]
    exact h.current

/-- Only the status of the others tells whether they have to be scheduled. -/
theorem Kept.mem_of_update (h : Kept s) (hq : q ∈ s.alive) {st : TaskStatus} (hqp : q ≠ p)
    (hz : Function.update s.status p st q ≠ .zombie) : q ∈ s.current.toList ++ s.readyQueue := by
  rw [Function.update_of_ne hqp] at hz
  exact h.scheduled q hq hz

/-- A step loses nobody, and none is the drop of a control block. -/
theorem Step.kept (hinv : Inv s) (h : Kept s) (hs : Step s e s') : Kept s' ∧ ∀ p, e ≠ .drop p := by
  cases hs with
  | @runTasks p queue hidle hqueue =>
    refine ⟨h.of_scheduler rfl rfl rfl rfl fun q hq hz => ?_, by simp⟩
    by_cases hqp : q = p
    · exact hqp ▸ List.mem_cons_self ..
    · have hmem := h.mem_of_update hq hqp hz
      rwa [hidle, hqueue] at hmem
  | enter | leave | waitpid => exact ⟨h.of_scheduler rfl rfl rfl rfl h.scheduled, by simp⟩
  | @yield p hcur _ _ =>
    rw [Kernel.sysYield_eq]
    refine ⟨h.of_scheduler rfl rfl rfl rfl fun q hq hz => ?_, by simp⟩
    show q ∈ s.readyQueue ++ [p]
    rw [List.mem_append, List.mem_singleton]
    by_cases hqp : q = p
    · exact .inr hqp
    · have hmem := h.mem_of_update hq hqp hz
      rw [hcur] at hmem
      exact .inl ((List.mem_cons.mp hmem).resolve_left hqp)
  | fork _ _ halloc => exact ⟨h.fork hinv halloc, by simp⟩
  | @exit p code hcur _ _ =>
    refine ⟨?_, by simp⟩
    have hsched : ∀ q ∈ s.alive, Function.update s.status p .zombie q ≠ .zombie →
        q ∈ s.current.toList ++ s.readyQueue := by
      intro q hq hz
      refine h.mem_of_update hq ?_ hz
      rintro rfl
      exact hz (Function.update_self ..)
    rw [Kernel.sysExit, Kernel.reparentToInit]
    split <;> exact h.of_scheduler rfl rfl rfl rfl hsched
  | @schedule p hcur _ hstatus =>
    rw [Kernel.schedule_eq hstatus]
    refine ⟨h.of_scheduler rfl rfl rfl rfl fun q hq hz => ?_, by simp⟩
    have hmem := h.scheduled q hq hz
    rw [hcur] at hmem
    refine (List.mem_cons.mp hmem).resolve_left ?_
    rintro rfl
    exact hz hstatus
  | drop halive hstrong _ => exact absurd hstrong (h.strong_pos hinv halive)

/-- Over every run nobody is lost, and no control block is dropped. -/
theorem kept_of_run {s₀ : Kernel} (h₀ : processes.init s₀) (hrun : processes.Run s₀ tr s) :
    Inv s ∧ Kept s ∧ ∀ p, .drop p ∉ tr := by
  refine hrun.history (I := fun tr s => Inv s ∧ Kept s ∧ ∀ p, .drop p ∉ tr) ⟨?_, ?_, nofun⟩ ?_
  · exact (inv_run h₀ (.nil s₀)).1
  · rcases h₀ with rfl | rfl
    · exact kept_boot none
    · exact kept_boot (some 0)
  · rintro tr t e u ⟨hinv, hkept, hdrop⟩ hs
    obtain ⟨hkept', hne⟩ := Step.kept hinv hkept hs
    refine ⟨inv_step hinv hs, hkept', fun p hmem => ?_⟩
    rcases List.mem_append.mp hmem with hmem | hmem
    · exact hdrop p hmem
    · exact hne p (List.mem_singleton.mp hmem).symm

/-- **No process is lost and no control block is dropped.** In every run the processes that have not
exited are the current task and those in the ready queue, each once; the current task may also be
one that has exited and has not been switched away from. No control block is ever dropped: it stays
referred to, that of an exited process by the frame of `sys_exit` on its stack. So no pid is ever
recycled, and the `n`-th process has the pid `n`. -/
theorem run_kept {s₀ : Kernel} (h₀ : processes.init s₀) (hrun : processes.Run s₀ tr s) :
    (∀ p, .drop p ∉ tr) ∧
    (∀ p, p ∈ s.alive ↔ p < s.next) ∧
    (∀ p < s.next, 0 < s.strong p ∧ (s.pid p).toNat = p ∧
      (s.status p = .zombie → s.stack p = [.sysExit])) ∧
    s.handles.allocator.recycled = [] ∧
    (s.current.toList ++ s.readyQueue).Nodup ∧
    ∀ p, p ∈ s.current.toList ++ s.readyQueue ↔
      p < s.next ∧ (s.status p ≠ .zombie ∨ s.current = some p) := by
  obtain ⟨hinv, hkept, hdrop⟩ := kept_of_run h₀ hrun
  refine ⟨hdrop, fun p => ⟨hinv.pids.lt p, hkept.alive p⟩, fun p hp => ⟨?_, hkept.pid p hp, ?_⟩,
    hkept.recycled, hinv.scheduled.nodup, fun p => ⟨fun hp => ?_, ?_⟩⟩
  · exact Nat.pos_of_ne_zero (hkept.strong_pos hinv (hkept.alive p hp))
  · exact fun hz => (hinv.scheduled.zombie p hz).2.1
  · refine ⟨hinv.pids.lt p (hinv.scheduled.mem p hp), ?_⟩
    rcases List.mem_append.mp hp with hcur | hready
    · exact .inr (Option.mem_toList.mp hcur)
    · exact .inl fun hz => (hinv.scheduled.zombie p hz).2.2 hready
  · rintro ⟨hlt, hz | hcur⟩
    · exact hkept.scheduled p (hkept.alive p hlt) hz
    · exact List.mem_append_left _ (Option.mem_toList.mpr hcur)

/-- The child that was reaped is still there with its pid, and is not scheduled any more. -/
theorem run_kept_child : ∃ s, processes.Run (boot (some 0)) reapTrace s ∧ .drop 1 ∉ reapTrace ∧
    (1 ∈ s.alive ∧ 0 < s.strong 1 ∧ (s.pid 1).toNat = 1 ∧ s.stack 1 = [.sysExit]) ∧
    1 ∉ s.current.toList ++ s.readyQueue := by
  obtain ⟨s, hrun, hcur, hnext, hzombie⟩ := exists_run_reapTrace
  obtain ⟨hdrop, halive, hkept, -, -, hsched⟩ := run_kept (.inr rfl) hrun
  have hlt : 1 < s.next := by rw [hnext]; decide
  obtain ⟨hstrong, hpid, hstack⟩ := hkept 1 hlt
  refine ⟨s, hrun, hdrop 1, ⟨(halive 1).mpr hlt, hstrong, hpid, hstack hzombie⟩, fun hmem => ?_⟩
  rcases ((hsched 1).mp hmem).2 with hne | hcur'
  · exact hne hzombie
  · rw [hcur] at hcur'
    cases hcur'

/-! ## Rounds -/

/-- A process has run exactly if there is a switch to it. -/
theorem mem_ran : p ∈ ran tr ↔ .runTasks p ∈ tr := by
  rw [ran, List.mem_filterMap]
  constructor
  · rintro ⟨e, hmem, he⟩
    cases e <;> cases he
    exact hmem
  · exact fun hmem => ⟨_, hmem, rfl⟩

/-- **The scheduler is a round robin.** When `p` gives up its turn, the others that have not exited
wait in the order in which they were put into the queue. `run_tasks` switches to them in this
order, to each of them once, and then to `p` again. So between two turns of `p` each of them has
exactly one turn, and nobody else has one, neither the processes forked meanwhile nor those that
yield again. -/
theorem run_rounds {s₀ s₁ : Kernel} (h₀ : processes.init s₀) (hrun : processes.Run s₀ tr s)
    (hyield : processes.step s (.yield p) s₁) :
    ∃ l : List Nat, l.Nodup ∧ (∀ q, q ∈ l ↔ q < s.next ∧ q ≠ p ∧ s.status q ≠ .zombie) ∧
      l <:+ 0 :: queued tr ∧
      (∀ tr' s', processes.Run s₁ tr' s' → ran tr' <+: l ∨ l ++ [p] <+: ran tr') ∧
      ∀ tr' s' s₂, processes.Run s₁ tr' s' → .runTasks p ∉ tr' →
        processes.step s' (.runTasks p) s₂ → ran tr' = l := by
  obtain ⟨hinv, hkept, -⟩ := kept_of_run h₀ hrun
  have hcur : s.current = some p := by
    cases hyield
    assumption
  have hqueue : s₁.readyQueue = s.readyQueue ++ p :: [] := by
    cases hyield
    rw [Kernel.sysYield_eq]
  have hnot : p ∉ s.readyQueue := (hinv.current hcur).not_mem_of_current
  have hturns : ∀ tr' s', processes.Run s₁ tr' s' →
      ran tr' <+: s.readyQueue ∨ s.readyQueue ++ [p] <+: ran tr' :=
    fun tr' s' hrun' => run_turns hqueue hrun'
  refine ⟨s.readyQueue, (List.nodup_append.mp hinv.scheduled.nodup).2.1,
    fun q => ⟨fun hq => ?_, ?_⟩, ?_, hturns, fun tr' s' s₂ hrun' hnever hs => ?_⟩
  · refine ⟨hinv.pids.lt q (hinv.scheduled.mem q (List.mem_append_right _ hq)), ?_, fun hz => ?_⟩
    · rintro rfl
      exact hnot hq
    · exact (hinv.scheduled.zombie q hz).2.2 hq
  · rintro ⟨hlt, hne, hz⟩
    have hmem := hkept.scheduled q (hkept.alive q hlt) hz
    rw [hcur] at hmem
    exact (List.mem_cons.mp hmem).resolve_left hne
  · have heq := run_readyQueue hrun
    have hfirst : s₀.readyQueue = [0] := by
      rcases h₀ with rfl | rfl <;> rfl
    rw [hfirst] at heq
    exact ⟨ran tr, heq.symm⟩
  · have hran : ran (tr' ++ [.runTasks p]) = ran tr' ++ [p] := List.filterMap_append
    rcases hturns _ _ (hrun'.snoc hs) with hpre | hpre
    · rw [hran] at hpre
      exact absurd (hpre.subset (List.mem_append_right _ (List.mem_singleton_self p))) hnot
    · rw [hran] at hpre
      rcases List.prefix_concat_iff.mp hpre with heq | hpre
      · exact (List.append_cancel_right heq).symm
      · have hmem := hpre.subset (List.mem_append_right _ (List.mem_singleton_self p))
        exact absurd (mem_ran.mp hmem) hnever

/-- The first process runs and forks twice, so that three processes are there. -/
def forkTrace : List Event :=
  [.runTasks 0, .enter 0 .sysFork, .fork 0 1, .leave 0, .enter 0 .sysFork, .fork 0 2, .leave 0]

/-- Its children run and yield, one after the other, in the order in which they were forked. -/
def yieldTrace : List Event := [.runTasks 1, .yield 1, .runTasks 2, .yield 2]

/-- The kernel can go through these events, up to the second turn of the first process. -/
theorem exists_run_yieldTrace : ∃ s₂, processes.Run (boot (some 0))
    ((forkTrace ++ [.yield 0]) ++ (yieldTrace ++ [.runTasks 0])) s₂ := by
  have h₁ := (System.Run.nil (S := processes) (boot (some 0))).snoc (.runTasks rfl rfl)
  have h₂ := h₁.snoc (.enter .sysFork rfl rfl nofun)
  have h₃ := h₂.snoc (.fork rfl rfl (.pidAlloc (by decide)))
  have h₄ := h₃.snoc (.leave rfl rfl nofun)
  have h₅ := h₄.snoc (.enter .sysFork rfl rfl nofun)
  have h₆ := h₅.snoc (.fork rfl rfl (.pidAlloc (by decide)))
  have h₇ := h₆.snoc (.leave rfl rfl nofun)
  have h₈ := h₇.snoc (.yield rfl (by decide) (by decide))
  have h₉ := h₈.snoc (.runTasks rfl rfl)
  have h₁₀ := h₉.snoc (.yield rfl (by decide) (by decide))
  have h₁₁ := h₁₀.snoc (.runTasks rfl rfl)
  have h₁₂ := h₁₁.snoc (.yield rfl (by decide) (by decide))
  have h₁₃ := h₁₂.snoc (.runTasks rfl rfl)
  exact ⟨_, h₁₃⟩

/-- Between two turns of the first process both children have had theirs, and nobody else. -/
theorem run_rounds_children : ∃ s s₁ s' s₂, processes.Run (boot (some 0)) forkTrace s ∧
    processes.step s (.yield 0) s₁ ∧ processes.Run s₁ yieldTrace s' ∧
    processes.step s' (.runTasks 0) s₂ ∧
    ∀ q, q ∈ ran yieldTrace ↔ q < s.next ∧ q ≠ 0 ∧ s.status q ≠ .zombie := by
  obtain ⟨s₂, hall⟩ := exists_run_yieldTrace
  obtain ⟨s₁, hfork, hturns⟩ := hall.of_append
  obtain ⟨s, hrun, hyield⟩ := hfork.of_snoc
  obtain ⟨s', hrun', hs⟩ := hturns.of_snoc
  obtain ⟨l, -, hmem, -, -, hround⟩ := run_rounds (.inr rfl) hrun hyield
  refine ⟨s, s₁, s', s₂, hrun, hyield, hrun', hs, ?_⟩
  rw [hround yieldTrace s' s₂ hrun' (by decide) hs]
  exact hmem

/-! ## Who has which children -/

/-- After `reparent_to_init` the children of the dying process are initproc's, and the others
where they were. -/
theorem mem_reparentToInit (hinit : s.initproc = some 0) :
    c ∈ (s.reparentToInit p).children q ↔
      q ≠ p ∧ c ∈ s.children q ∨ q = 0 ∧ c ∈ s.children p := by
  simp only [Kernel.reparentToInit, hinit]
  by_cases hq0 : q = 0
  · subst hq0
    by_cases hp : p = 0
    · simp [hp]
    · simp [Ne.symm hp]
  · by_cases hqp : q = p
    · subst hqp
      simp [hq0]
    · simp [hq0, hqp]

/-- What a step does to the children lists. A child is made by `fork`, moved to initproc by `exit`
and removed by `waitpid`. -/
theorem Step.children (hinit : s.initproc = some 0) (hinv : Inv s) (hkept : Kept s)
    (hs : Step s e s') :
    (c ∈ s'.children q → c ∈ s.children q ∨ e = .fork q c ∨
      q = 0 ∧ ∃ p code, e = .exit p code ∧ c ∈ s.children p) ∧
    (c ∈ s.children q → c ∈ s'.children q ∧ (∀ code, e ≠ .exit q code) ∨
      (∃ p, e = .waitpid p c) ∨ c ∈ s'.children 0) := by
  cases hs with
  | runTasks | enter | leave => exact ⟨.inl, fun h => .inl ⟨h, by simp⟩⟩
  | yield _ _ _ =>
    rw [Kernel.sysYield_eq]
    exact ⟨.inl, fun h => .inl ⟨h, by simp⟩⟩
  | schedule _ _ hstatus =>
    rw [Kernel.schedule_eq hstatus]
    exact ⟨.inl, fun h => .inl ⟨h, by simp⟩⟩
  | @fork p pid handles hcur _ halloc =>
    have hp : p ≠ s.next := (hinv.pids.lt p (hinv.mem_of_current hcur)).ne
    simp only [Kernel.sysFork, Kernel.addTask]
    by_cases hqp : q = p
    · subst hqp
      rw [Function.update_self, List.mem_append, List.mem_singleton]
      refine ⟨?_, fun h => .inl ⟨.inl h, by simp⟩⟩
      rintro (h | rfl)
      · exact .inl h
      · exact .inr (.inl rfl)
    · rw [Function.update_of_ne hqp]
      by_cases hqn : q = s.next
      · subst hqn
        rw [Function.update_self]
        refine ⟨nofun, fun h => ?_⟩
        exact absurd (hinv.pids.lt _ (hinv.family.mem _ c h).1) (lt_irrefl _)
      · rw [Function.update_of_ne hqn]
        exact ⟨.inl, fun h => .inl ⟨h, by simp⟩⟩
  | @exit p code _ _ _ =>
    rw [Kernel.sysExit, mem_reparentToInit (by exact hinit), mem_reparentToInit (by exact hinit)]
    constructor
    · rintro (⟨-, h⟩ | ⟨h0, h⟩)
      · exact .inl h
      · exact .inr (.inr ⟨h0, p, code, rfl, h⟩)
    · intro h
      by_cases hqp : q = p
      · subst hqp
        exact .inr (.inr (.inr ⟨rfl, h⟩))
      · refine .inl ⟨.inl ⟨hqp, h⟩, fun code' heq => ?_⟩
        cases heq
        exact hqp rfl
  | @waitpid p d _ hd _ =>
    simp only [Kernel.sysWaitpid]
    by_cases hqp : q = p
    · subst hqp
      rw [Function.update_self, (hinv.family.nodup q).mem_erase_iff]
      refine ⟨fun h => .inl h.2, fun h => ?_⟩
      by_cases hcd : c = d
      · exact .inr (.inl ⟨q, hcd ▸ rfl⟩)
      · exact .inl ⟨⟨hcd, h⟩, by simp⟩
    · rw [Function.update_of_ne hqp]
      exact ⟨.inl, fun h => .inl ⟨h, by simp⟩⟩
  | drop halive hstrong _ => exact absurd hstrong (hkept.strong_pos hinv halive)

/-- A zombie stays one and keeps its exit code, until and after it is reaped. -/
theorem Step.zombie (hinv : Inv s) (hs : Step s e s') (hz : s.status p = .zombie) :
    s'.status p = .zombie ∧ s'.exitCode p = s.exitCode p := by
  obtain ⟨halive, hstack, hready⟩ := hinv.scheduled.zombie p hz
  have hstatus : ∀ q st, p ≠ q → Function.update s.status q st p = .zombie := by
    intro q st hne
    rw [Function.update_of_ne hne]
    exact hz
  cases hs with
  | @runTasks q queue _ hqueue =>
    refine ⟨hstatus q _ ?_, rfl⟩
    rintro rfl
    exact hready (hqueue ▸ List.mem_cons_self ..)
  | enter | leave | waitpid | drop => exact ⟨hz, rfl⟩
  | @yield q _ _ hexit =>
    rw [Kernel.sysYield_eq]
    refine ⟨hstatus q _ ?_, rfl⟩
    rintro rfl
    exact hexit (hstack ▸ List.mem_singleton_self _)
  | fork _ _ _ =>
    have hne : p ≠ s.next := (hinv.pids.lt p halive).ne
    exact ⟨hstatus s.next _ hne, Function.update_of_ne hne ..⟩
  | @exit q code _ _ hq =>
    have hne : p ≠ q := by
      rintro rfl
      exact hq hz
    rw [Kernel.sysExit, Kernel.reparentToInit]
    split <;> exact ⟨hstatus q _ hne, Function.update_of_ne hne ..⟩
  | schedule _ _ hq =>
    rw [Kernel.schedule_eq hq]
    exact ⟨hz, rfl⟩

/-- A process becomes a zombie by `sys_exit`, with the exit code given there. -/
theorem Step.exits (hs : Step s e s') :
    (∀ code, e = .exit p code → s'.status p = .zombie ∧ s'.exitCode p = code) ∧
      (s'.status p = .zombie → s.status p = .zombie ∨ ∃ code, e = .exit p code) := by
  have hupdate : ∀ (q : Nat) (st : TaskStatus), st ≠ .zombie →
      Function.update s.status q st p = .zombie → s.status p = .zombie := by
    intro q st hst hz
    by_cases hpq : p = q
    · rw [hpq, Function.update_self] at hz
      exact absurd hz hst
    · rwa [Function.update_of_ne hpq] at hz
  cases hs with
  | runTasks => exact ⟨nofun, fun hz => .inl (hupdate _ .running nofun hz)⟩
  | fork => exact ⟨nofun, fun hz => .inl (hupdate _ .ready nofun hz)⟩
  | enter | leave | waitpid | drop => exact ⟨nofun, .inl⟩
  | yield =>
    rw [Kernel.sysYield_eq]
    exact ⟨nofun, fun hz => .inl (hupdate _ .ready nofun hz)⟩
  | schedule _ _ hq =>
    rw [Kernel.schedule_eq hq]
    exact ⟨nofun, .inl⟩
  | @exit q code _ _ _ =>
    suffices h : Function.update s.status q .zombie p = .zombie →
        s.status p = .zombie ∨ ∃ code', Event.exit q code = .exit p code' by
      refine ⟨fun code' heq => ?_, fun hz => h ?_⟩
      · cases heq
        rw [Kernel.sysExit, Kernel.reparentToInit]
        split <;> exact ⟨Function.update_self .., Function.update_self ..⟩
      · rw [Kernel.sysExit, Kernel.reparentToInit] at hz
        split at hz <;> exact hz
    intro hz
    by_cases hpq : p = q
    · exact .inr ⟨code, hpq ▸ rfl⟩
    · rw [Function.update_of_ne hpq] at hz
      exact .inl hz

/-- No step installs another initproc, so that orphans always go to the same process. -/
theorem Step.initproc (hs : Step s e s') : s'.initproc = s.initproc := by
  cases hs with
  | runTasks | enter | leave | fork | waitpid | drop => rfl
  | yield => rw [Kernel.sysYield_eq]
  | schedule _ _ hq => rw [Kernel.schedule_eq hq]
  | exit =>
    rw [Kernel.sysExit, Kernel.reparentToInit]
    split <;> rfl

/-! ## Reaping -/

/-- The parents and the exit codes after some events, as the events themselves account for them. -/
structure Accounted (tr : List Event) (s : Kernel) : Prop where
  initproc : s.initproc = some 0
  exited : ∀ p code, .exit p code ∈ tr → s.status p = .zombie ∧ s.exitCode p = code
  zombie : ∀ p, s.status p = .zombie → ∃ code, .exit p code ∈ tr
  parent : ∀ p < s.next, p ≠ 0 → (∃ q, .waitpid q p ∈ tr) ∨
    ∃ q, p ∈ s.children q ∧ (q = 0 ∨ s.status q ≠ .zombie)
  forked : ∀ q c, c ∈ s.children q → .fork q c ∈ tr ∨
    q = 0 ∧ ∃ p code, .fork p c ∈ tr ∧ .exit p code ∈ tr

/-- At the start nobody has exited, and the first process has no parent. -/
theorem accounted_boot : Accounted [] (boot (some 0)) where
  initproc := rfl
  exited := nofun
  zombie := nofun
  parent _ hp hne := absurd (Nat.lt_one_iff.mp hp) hne
  forked := nofun

/-- A process is new after `fork` only, which makes it a child of the caller. -/
theorem Step.next (hs : Step s e s') (hp : p < s'.next) :
    p < s.next ∨ ∃ q, e = .fork q p ∧ p ∈ s'.children q ∧ s.stack q = [.sysFork] := by
  cases hs with
  | runTasks | enter | leave | waitpid | drop => exact .inl hp
  | yield =>
    rw [Kernel.sysYield_eq] at hp
    exact .inl hp
  | schedule _ _ hq =>
    rw [Kernel.schedule_eq hq] at hp
    exact .inl hp
  | exit =>
    rw [Kernel.sysExit, Kernel.reparentToInit] at hp
    split at hp <;> exact .inl hp
  | @fork q pid handles _ hstack _ =>
    rcases Nat.lt_succ_iff_lt_or_eq.mp hp with hp | rfl
    · exact .inl hp
    · refine .inr ⟨q, rfl, ?_, hstack⟩
      simp only [Kernel.sysFork, Kernel.addTask]
      rw [Function.update_self]
      exact List.mem_append_right _ (List.mem_singleton_self _)

/-- A step keeps the account: forks and exits change parents as they should, and nothing else
does. -/
theorem Step.accounted (hinv : Inv s) (hkept : Kept s) (h : Accounted tr s) (hs : Step s e s') :
    Accounted (tr ++ [e]) s' := by
  have hold : ∀ {e'}, e' ∈ tr → e' ∈ tr ++ [e] := fun hmem => List.mem_append_left _ hmem
  have hnew : e ∈ tr ++ [e] := List.mem_append_right _ (List.mem_singleton_self e)
  refine ⟨hs.initproc.trans h.initproc, fun p code hmem => ?_, fun p hz => ?_,
    fun p hp hne => ?_, fun q c hc => ?_⟩
  · rcases List.mem_append.mp hmem with hmem | hmem
    · obtain ⟨hz, hcode⟩ := h.exited p code hmem
      obtain ⟨hz', hcode'⟩ := hs.zombie hinv hz
      exact ⟨hz', hcode'.trans hcode⟩
    · exact hs.exits.1 code (List.mem_singleton.mp hmem).symm
  · rcases hs.exits.2 hz with hz | ⟨code, rfl⟩
    · obtain ⟨code, hmem⟩ := h.zombie p hz
      exact ⟨code, hold hmem⟩
    · exact ⟨code, hnew⟩
  · rcases hs.next hp with hp | ⟨q, rfl, hmem, hstack⟩
    · rcases h.parent p hp hne with ⟨q, hwait⟩ | ⟨q, hmem, hq⟩
      · exact .inl ⟨q, hold hwait⟩
      · rcases (hs.children h.initproc hinv hkept).2 hmem with ⟨hmem', hexit⟩ | ⟨q', rfl⟩ | hmem'
        · refine .inr ⟨q, hmem', hq.imp id fun hq hz => ?_⟩
          rcases hs.exits.2 hz with hz | ⟨code, heq⟩
          · exact hq hz
          · exact hexit code heq
        · exact .inl ⟨q', hnew⟩
        · exact .inr ⟨0, hmem', .inl rfl⟩
    · refine .inr ⟨q, hmem, .inr fun hz => ?_⟩
      rcases hs.exits.2 hz with hz | ⟨code, heq⟩
      · exact hinv.scheduled.not_zombie (by rw [hstack]; nofun) hz
      · cases heq
  · rcases (hs.children h.initproc hinv hkept).1 hc with hc | rfl | ⟨rfl, p, code, rfl, hc⟩
    · rcases h.forked q c hc with hmem | ⟨hq, p, code, hfork, hexit⟩
      · exact .inl (hold hmem)
      · exact .inr ⟨hq, p, code, hold hfork, hold hexit⟩
    · exact .inl hnew
    · rcases h.forked p c hc with hmem | ⟨-, p', code', hfork, hexit⟩
      · exact .inr ⟨rfl, p, code, hold hmem, hnew⟩
      · exact .inr ⟨rfl, p', code', hold hfork, hold hexit⟩

/-- The account is right after every run with initproc installed. -/
theorem accounted_of_run (hrun : processes.Run (boot (some 0)) tr s) :
    Inv s ∧ Kept s ∧ Accounted tr s := by
  refine hrun.history (I := fun tr s => Inv s ∧ Kept s ∧ Accounted tr s)
    ⟨inv_boot (.inr rfl), kept_boot _, accounted_boot⟩ ?_
  rintro tr t e u ⟨hinv, hkept, hacc⟩ hs
  exact ⟨inv_step hinv hs, (Step.kept hinv hkept hs).1, Step.accounted hinv hkept hacc hs⟩

/-- **Every exit code is delivered once, to the right process.** After any run with initproc
installed:
* a process that has exited and has not been reaped, other than initproc, is in the children list of
  exactly one process, which has not exited or is initproc;
* whom `waitpid` reaps has exited, its exit code is still the one it exited with, and nobody has
  reaped it before;
* and the one who reaps it forked it, or is initproc and the one who forked it has exited. -/
theorem run_reaped (hrun : processes.Run (boot (some 0)) tr s) :
    (∀ c code, .exit c code ∈ tr → c ≠ 0 → (∀ q, .waitpid q c ∉ tr) →
      s.exitCode c = code ∧ ∃ q, (q = 0 ∨ s.status q ≠ .zombie) ∧
        ∀ q', c ∈ s.children q' ↔ q' = q) ∧
    ∀ q c s', processes.step s (.waitpid q c) s' →
      .exit c (s.exitCode c) ∈ tr ∧ (∀ q', .waitpid q' c ∉ tr) ∧
      (.fork q c ∈ tr ∨ q = 0 ∧ ∃ p code, .fork p c ∈ tr ∧ .exit p code ∈ tr) := by
  obtain ⟨hinv, -, hacc⟩ := accounted_of_run hrun
  obtain ⟨-, hreaped⟩ := inv_run (.inr rfl) hrun
  refine ⟨fun c code hexit hne hwait => ?_, fun q c s' hs => ?_⟩
  · obtain ⟨hz, hcode⟩ := hacc.exited c code hexit
    have hlt := hinv.pids.lt c (hinv.scheduled.zombie c hz).1
    rcases hacc.parent c hlt hne with ⟨q, hmem⟩ | ⟨q, hmem, hq⟩
    · exact absurd hmem (hwait q)
    · refine ⟨hcode, q, hq, fun q' => ⟨fun hmem' => hinv.family.parent q' q c hmem' hmem, ?_⟩⟩
      rintro rfl
      exact hmem
  · cases hs with
    | waitpid _ hc hz =>
      obtain ⟨code, hexit⟩ := hacc.zombie c hz
      rw [(hacc.exited c code hexit).2]
      exact ⟨hexit, fun q' hmem => (hreaped q' c hmem).notChild q hc, hacc.forked q c hc⟩

/-- The exit code of the first child is delivered to the first process. -/
theorem run_reaped_first : ∃ tr s s', processes.Run (boot (some 0)) tr s ∧
    processes.step s (.waitpid 0 1) s' ∧ .exit 1 (s.exitCode 1) ∈ tr := by
  obtain ⟨s', hrun', -⟩ := exists_run_reapTrace
  change processes.Run _ (reapTrace.dropLast ++ [.waitpid 0 1]) s' at hrun'
  obtain ⟨s, hrun, hs⟩ := hrun'.of_snoc
  exact ⟨_, s, s', hrun, hs, ((run_reaped hrun).2 0 1 s' hs).1⟩

end TinyOS.Task
