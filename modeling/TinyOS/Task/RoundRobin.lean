import TinyOS.Task.Resume

/-!
# The round-robin scheduler

The `TaskManager` of `phase_2_proc/src/task/mod.rs`, without the contexts it switches: who is
`Ready`, `Running` or `Exited`, and who is next. `run_first_task`, `find_next_task` and
`run_next_task` are exercises there. They are parameters here (`Exercises`), and `Meets` states what
their comments require; `find_next` of `tests/test_lab2_scheduler.rs` meets it (`meets_scan`).

A switch goes to the first ready task after the current one, so it comes nearer to every task that
waits (`Step.nearer`), and no task waits longer than one round (`run_roundRobin`).
-/

namespace TinyOS.RoundRobin

open Transition

/-- The entries of `tasks` from `numApp` on are never looked at. -/
structure TaskManagerInner where
  tasks : Nat → TaskStatus
  current : Nat
  numApp : Nat

namespace TaskManagerInner

/-- `TASK_MANAGER` as it is initialised: the apps are `Ready`, and `current` is 0. -/
def start (numApp : Nat) : TaskManagerInner where
  tasks i := if i < numApp then .ready else .unInit
  current := 0
  numApp := numApp

/-- `mark_current_suspended`: the current task has yielded and is `Ready`, and may be found
again. -/
def markCurrentSuspended (m : TaskManagerInner) : TaskManagerInner :=
  { m with tasks := Function.update m.tasks m.current .ready }

/-- `mark_current_exited`: the current task has died and is `Exited`, and is never found again. -/
def markCurrentExited (m : TaskManagerInner) : TaskManagerInner :=
  { m with tasks := Function.update m.tasks m.current .exited }

/-- The task that is `off` places behind the current one, around the table. -/
def behind (m : TaskManagerInner) (off : Nat) : Nat := (m.current + off) % m.numApp

/-- The table after a switch to task `i`, which is current and running then. -/
def switch (m : TaskManagerInner) (i : Nat) : TaskManagerInner :=
  { m with tasks := Function.update m.tasks i .running, current := i }

end TaskManagerInner

/-- The methods of `TaskManager` that are exercises, as what they do to the table. `none` is the
kernel after `sbi::shutdown`. -/
structure Exercises where
  runFirstTask : TaskManagerInner → TaskManagerInner
  findNextTask : TaskManagerInner → Option Nat
  runNextTask : TaskManagerInner → Option TaskManagerInner

/-- What the comments of the exercises require: `run_first_task` marks task 0 as `Running`,
`find_next_task` returns the first ready task after the current one, around the table, and
`run_next_task` switches to that task, or shuts down if there is none. -/
structure Meets (x : Exercises) : Prop where
  first : ∀ m, x.runFirstTask m = { m with tasks := Function.update m.tasks 0 .running }
  find_some : ∀ m i, x.findNextTask m = some i → ∃ off, 1 ≤ off ∧ off ≤ m.numApp ∧
    m.behind off = i ∧ m.tasks i = .ready ∧
    ∀ off', 1 ≤ off' → off' < off → m.tasks (m.behind off') ≠ .ready
  find_none : ∀ m, x.findNextTask m = none →
    ∀ off, 1 ≤ off → off ≤ m.numApp → m.tasks (m.behind off) ≠ .ready
  next_some : ∀ m i, x.findNextTask m = some i → x.runNextTask m = some (m.switch i)
  next_none : ∀ m, x.findNextTask m = none → x.runNextTask m = none

section

variable (x : Exercises)

/-- `suspend_current_and_run_next`: the current task is ready again, and the next one runs. -/
def suspendCurrentAndRunNext (m : TaskManagerInner) : Option TaskManagerInner :=
  x.runNextTask m.markCurrentSuspended

/-- `exit_current_and_run_next`: the current task has exited, and the next one runs. -/
def exitCurrentAndRunNext (m : TaskManagerInner) : Option TaskManagerInner :=
  x.runNextTask m.markCurrentExited

end

/-- What the current task does: `sys_yield` or a timer interrupt, `sys_exit` or a fault. -/
inductive Event where
  | suspend
  | exit
  deriving DecidableEq

/-- The handler on behalf of the current task: it yields or exits, and the kernel goes on or
shuts down. -/
inductive Step (x : Exercises) :
    Option TaskManagerInner → Event → Option TaskManagerInner → Prop where
  | suspend (m : TaskManagerInner) : Step x (some m) .suspend (suspendCurrentAndRunNext x m)
  | exit (m : TaskManagerInner) : Step x (some m) .exit (exitCurrentAndRunNext x m)

/-- The kernel with at least one app, from `run_first_task` on. -/
def system (x : Exercises) : System (Option TaskManagerInner) Event where
  init s := ∃ numApp, 0 < numApp ∧ s = some (x.runFirstTask (.start numApp))
  step := Step x

/-! ## The next task -/

variable {x : Exercises} {m m' : TaskManagerInner} {e : Event} {s s' : Option TaskManagerInner}
  {i j off : Nat}

/-- One step around the table: past the last task it goes on with the first. -/
theorem add_mod_eq {a n : Nat} (ha : a < n) (hoff : off ≤ n) :
    (a + off) % n = if a + off < n then a + off else a + off - n := by
  split
  · exact Nat.mod_eq_of_lt ‹_›
  · rw [Nat.mod_eq_sub_mod (by omega), Nat.mod_eq_of_lt (by omega)]

namespace TaskManagerInner

/-- How many tasks further `j` is than the current one, going round the table. -/
def distance (m : TaskManagerInner) (j : Nat) : Nat :=
  if m.current ≤ j then j - m.current else j + m.numApp - m.current

/-- A task at its distance, or the current one after a round. -/
theorem exists_offset (hcur : m.current < m.numApp) (hj : j < m.numApp) :
    ∃ off, 1 ≤ off ∧ off ≤ m.numApp ∧ m.behind off = j ∧
      (j ≠ m.current → off = m.distance j) := by
  by_cases hne : j = m.current
  · refine ⟨m.numApp, by omega, le_rfl, ?_, fun h => absurd hne h⟩
    rw [behind, add_mod_eq hcur le_rfl, if_neg (by omega)]
    omega
  · have hpos : 1 ≤ m.distance j ∧ m.distance j ≤ m.numApp := by
      unfold distance
      split <;> omega
    refine ⟨m.distance j, hpos.1, hpos.2, ?_, fun _ => rfl⟩
    rw [behind, add_mod_eq hcur hpos.2]
    unfold distance
    split <;> split <;> omega

end TaskManagerInner

/-- If no task is found, no task of the table is ready. -/
theorem Meets.not_ready (hx : Meets x) (hcur : m.current < m.numApp)
    (h : x.findNextTask m = none) (hj : j < m.numApp) : m.tasks j ≠ .ready := by
  obtain ⟨off, hpos, hle, rfl, -⟩ := m.exists_offset hcur hj
  exact hx.find_none m h off hpos hle

/-- `find_next` of the tests, and the steps that the comments of the exercises list. -/
def scan : Exercises where
  runFirstTask m := { m with tasks := Function.update m.tasks 0 .running }
  findNextTask m := ((List.range' 1 m.numApp).map m.behind).find? fun i => m.tasks i = .ready
  runNextTask m :=
    (((List.range' 1 m.numApp).map m.behind).find? fun i => m.tasks i = .ready).map m.switch

/-- The candidates of `find_next`, read by position: the tasks behind the current one, in their
order. -/
theorem getElem?_map_behind (m : TaskManagerInner) {k : Nat} (hk : k < m.numApp) :
    ((List.range' 1 m.numApp).map m.behind)[k]? = some (m.behind (1 + k)) := by
  rw [List.getElem?_map, List.getElem?_range' hk, Nat.one_mul]
  rfl

/-- **The model of the tests meets the comments**, so that the requirements on the exercises can
be met. -/
theorem meets_scan : Meets scan where
  first _ := rfl
  find_some m i h := by
    obtain ⟨hready, l, r, hsplit, hl⟩ := List.find?_eq_some_iff_append.mp h
    have hlen : l.length < m.numApp := by
      have := congrArg List.length hsplit
      simp only [List.length_map, List.length_range', List.length_append, List.length_cons] at this
      omega
    refine ⟨1 + l.length, by omega, by omega, ?_, of_decide_eq_true hready, fun off' hpos hlt => ?_⟩
    · have hi := getElem?_map_behind m hlen
      rw [hsplit, List.getElem?_append_right le_rfl, Nat.sub_self] at hi
      exact (Option.some.inj hi).symm
    · have hoff := getElem?_map_behind m (show off' - 1 < m.numApp by omega)
      rw [hsplit, List.getElem?_append_left (by omega)] at hoff
      have hne := hl _ (List.mem_of_getElem? hoff)
      rw [show 1 + (off' - 1) = off' by omega] at hne
      simpa using hne
  find_none m h off hpos hle := by
    have hmem : m.behind off ∈ (List.range' 1 m.numApp).map m.behind :=
      List.mem_map_of_mem (List.mem_range'_1.mpr ⟨hpos, by omega⟩)
    simpa using List.find?_eq_none.mp h _ hmem
  next_some m i h := by
    show (scan.findNextTask m).map m.switch = _
    rw [h]
    rfl
  next_none m h := by
    show (scan.findNextTask m).map m.switch = _
    rw [h]
    rfl

/-! ## Steps -/

/-- The tasks when the next one is looked for: the current one has been marked already. -/
def TaskManagerInner.mark (m : TaskManagerInner) : Event → TaskManagerInner
  | .suspend => m.markCurrentSuspended
  | .exit => m.markCurrentExited

/-- A step marks the current task and runs the next one. -/
theorem step_iff : Step x (some m) e s' ↔ s' = x.runNextTask (m.mark e) := by
  constructor
  · intro h
    cases h with
    | suspend | exit => rfl
  · rintro rfl
    cases e with
    | suspend => exact .suspend m
    | exit => exact .exit m

/-- Marking the current task does not make another one current. -/
@[simp] theorem mark_current (m : TaskManagerInner) (e : Event) :
    (m.mark e).current = m.current := by
  cases e <;> rfl

/-- Marking the current task does not change how many there are. -/
@[simp] theorem mark_numApp (m : TaskManagerInner) (e : Event) :
    (m.mark e).numApp = m.numApp := by
  cases e <;> rfl

/-- Only the current task is marked; the others have the status they had. -/
theorem mark_tasks_of_ne (e : Event) (h : j ≠ m.current) : (m.mark e).tasks j = m.tasks j := by
  cases e <;> exact Function.update_of_ne h _ _

/-- The current task is ready after a suspend and exited after an exit. -/
theorem mark_tasks_current (e : Event) :
    (m.mark e).tasks m.current = if e = .suspend then .ready else .exited := by
  cases e <;> exact Function.update_self ..

/-- The current task is one of the table and runs, and the others are ready or have exited. -/
structure Inv (m : TaskManagerInner) : Prop where
  current_lt : m.current < m.numApp
  running : m.tasks m.current = .running
  other : ∀ i < m.numApp, i ≠ m.current → m.tasks i = .ready ∨ m.tasks i = .exited

/-- The invariant holds once `run_first_task` has started the first task. -/
theorem inv_first {numApp : Nat} (hx : Meets x) (h : 0 < numApp) :
    Inv (x.runFirstTask (.start numApp)) := by
  rw [hx.first]
  refine ⟨h, ?_, fun i hi hne => .inl ?_⟩
  · show Function.update (TaskManagerInner.start numApp).tasks 0 TaskStatus.running 0 = .running
    exact Function.update_self ..
  · exact (Function.update_of_ne hne ..).trans (if_pos hi)

/-- A switch to `i`, the first ready task behind the current one, after that was marked. -/
structure SwitchesTo (m : TaskManagerInner) (e : Event) (i : Nat) (m' : TaskManagerInner) :
    Prop where
  eq : m' = (m.mark e).switch i
  lt : i < m.numApp
  ready : (m.mark e).tasks i = .ready
  first : ∃ off, 1 ≤ off ∧ off ≤ m.numApp ∧ m.behind off = i ∧
    ∀ off', 1 ≤ off' → off' < off → (m.mark e).tasks (m.behind off') ≠ .ready

/-- The places in the table do not depend on what is marked. -/
@[simp] theorem mark_behind (m : TaskManagerInner) (e : Event) (off : Nat) :
    (m.mark e).behind off = m.behind off := by
  rw [TaskManagerInner.behind, mark_current, mark_numApp, TaskManagerInner.behind]

/-- A step that does not shut down is a switch to the task that is current afterwards. -/
theorem Step.switchesTo (hx : Meets x) (h : Inv m) (hs : Step x (some m) e (some m')) :
    SwitchesTo m e m'.current m' := by
  have heq := step_iff.mp hs
  cases hfind : x.findNextTask (m.mark e) with
  | none =>
    rw [hx.next_none _ hfind] at heq
    cases heq
  | some i =>
    rw [hx.next_some _ i hfind] at heq
    obtain ⟨off, hpos, hle, hoff, hready, hfirst⟩ := hx.find_some _ i hfind
    rw [mark_numApp] at hle
    rw [mark_behind] at hoff
    simp only [mark_behind] at hfirst
    cases heq
    refine ⟨rfl, ?_, hready, off, hpos, hle, hoff, hfirst⟩
    rw [TaskManagerInner.switch, ← hoff]
    exact Nat.mod_lt _ (Nat.zero_lt_of_lt h.current_lt)

/-- The status of a task that is not switched to. -/
theorem SwitchesTo.tasks_of_ne (h : SwitchesTo m e i m') (hj : j ≠ i) :
    m'.tasks j = (m.mark e).tasks j := by
  rw [h.eq]
  exact Function.update_of_ne hj _ _

/-- A switch does not change how many tasks there are. -/
theorem SwitchesTo.numApp_eq (h : SwitchesTo m e i m') : m'.numApp = m.numApp := by
  rw [h.eq]
  exact mark_numApp m e

/-- A task that has exited is not switched to: only a ready one is. -/
theorem SwitchesTo.ne_of_exited (h : SwitchesTo m e i m') (hj : (m.mark e).tasks j = .exited) :
    j ≠ i := by
  rintro rfl
  rw [h.ready] at hj
  cases hj

/-- A switch keeps the invariant: the task that runs is the current one. -/
theorem Inv.step (hx : Meets x) (h : Inv m) (hs : Step x (some m) e (some m')) : Inv m' := by
  have hsw := hs.switchesTo hx h
  refine ⟨?_, ?_, fun i hi hne => ?_⟩
  · rw [hsw.numApp_eq]
    exact hsw.lt
  · rw [hsw.eq]
    exact Function.update_self ..
  · rw [hsw.tasks_of_ne hne]
    by_cases hcur : i = m.current
    · rw [hcur, mark_tasks_current]
      split
      · exact .inl rfl
      · exact .inr rfl
    · rw [mark_tasks_of_ne e hcur]
      exact h.other i (hsw.numApp_eq ▸ hi) hcur

/-- When the kernel shuts down: the current task exits, and all others have exited before. -/
theorem Inv.step_none_iff (hx : Meets x) (h : Inv m) : Step x (some m) e none ↔
    e = .exit ∧ ∀ j < m.numApp, j ≠ m.current → m.tasks j = .exited := by
  have hnext : Step x (some m) e none ↔ ∀ j < m.numApp, (m.mark e).tasks j ≠ .ready := by
    rw [step_iff]
    cases hfind : x.findNextTask (m.mark e) with
    | none =>
      refine iff_of_true (hx.next_none _ hfind).symm fun j hj => hx.not_ready ?_ hfind ?_
      · rw [mark_current, mark_numApp]
        exact h.current_lt
      · rwa [mark_numApp]
    | some i =>
      obtain ⟨off, -, -, hoff, hready, -⟩ := hx.find_some _ i hfind
      refine iff_of_false ?_ fun hall => hall i ?_ hready
      · rw [hx.next_some _ i hfind]
        exact fun hnone => by cases hnone
      · rw [← hoff, mark_behind]
        exact Nat.mod_lt _ (Nat.zero_lt_of_lt h.current_lt)
  rw [hnext]
  constructor
  · intro hnone
    have hexit : e = .exit := by
      cases e with
      | exit => rfl
      | suspend => exact absurd (mark_tasks_current _) (hnone m.current h.current_lt)
    refine ⟨hexit, fun j hj hne => (h.other j hj hne).resolve_left fun hready => ?_⟩
    exact hnone j hj ((mark_tasks_of_ne e hne).trans hready)
  · rintro ⟨rfl, hall⟩ j hj hready
    by_cases hne : j = m.current
    · rw [hne, mark_tasks_current] at hready
      cases hready
    · rw [mark_tasks_of_ne _ hne, hall j hj hne] at hready
      cases hready

/-- **A switch comes nearer to every task that waits**, and does not pass it. -/
theorem Step.nearer (hx : Meets x) (h : Inv m) (hj : j < m.numApp) (hready : m.tasks j = .ready)
    (hs : Step x (some m) e s') : ∃ m', s' = some m' ∧ m'.distance j < m.distance j ∧
      (m'.current = j ∨ m'.tasks j = .ready) := by
  have hne : j ≠ m.current := by
    rintro rfl
    rw [h.running] at hready
    cases hready
  have hmark : (m.mark e).tasks j = .ready := (mark_tasks_of_ne e hne).trans hready
  cases s' with
  | none =>
    rw [((h.step_none_iff hx).mp hs).2 j hj hne] at hready
    cases hready
  | some m' =>
    have hsw := hs.switchesTo hx h
    refine ⟨m', rfl, ?_, ?_⟩
    · obtain ⟨off, hpos, hle, hoff, hfirst⟩ := hsw.first
      obtain ⟨d, hd, hdle, hdj, hdist⟩ := m.exists_offset h.current_lt hj
      have hoffle : off ≤ d := by
        by_contra hlt
        exact hfirst d hd (not_le.mp hlt) (hdj ▸ hmark)
      have hcur := h.current_lt
      rw [← hdist hne]
      rw [TaskManagerInner.behind, add_mod_eq hcur hle] at hoff
      rw [TaskManagerInner.behind, add_mod_eq hcur hdle] at hdj
      rw [TaskManagerInner.distance, hsw.numApp_eq]
      split at hoff <;> split at hdj <;> split <;> omega
    · by_cases hcur : j = m'.current
      · exact .inl hcur.symm
      · exact .inr ((hsw.tasks_of_ne hcur).trans hmark)

/-! ## Runs -/

variable {tr : List Event}

/-- A run of the kernel up to now: the invariant holds, there are as many tasks, and who has
exited stays so. -/
theorem inv_of_run (hx : Meets x) (h : Inv m) (hrun : (system x).Run (some m) tr s) :
    ∀ m', s = some m' → Inv m' ∧ m'.numApp = m.numApp ∧
      ∀ j, m.tasks j = .exited → m'.tasks j = .exited := by
  refine hrun.history (I := fun _ s => ∀ m', s = some m' → Inv m' ∧ m'.numApp = m.numApp ∧
    ∀ j, m.tasks j = .exited → m'.tasks j = .exited) ?_ ?_
  · rintro _ ⟨⟩
    exact ⟨h, rfl, fun j hj => hj⟩
  · rintro tr s e s' ih hs m' rfl
    cases s with
    | none => cases hs
    | some m₁ =>
      obtain ⟨hinv, hnum, hexited⟩ := ih m₁ rfl
      have hsw := Step.switchesTo hx hinv hs
      refine ⟨hinv.step hx hs, hsw.numApp_eq.trans hnum, fun j hj => ?_⟩
      have hj₁ := hexited j hj
      have hne : j ≠ m₁.current := by
        rintro rfl
        rw [hinv.running] at hj₁
        cases hj₁
      have hmark := (mark_tasks_of_ne e hne).trans hj₁
      rw [hsw.tasks_of_ne (hsw.ne_of_exited hmark), hmark]

/-- A task that waits is run after at most as many switches as it is tasks away. -/
theorem run_within_distance (hx : Meets x) (h : Inv m) (hj : j < m.numApp)
    (hready : m.tasks j = .ready) (hrun : (system x).Run (some m) tr s)
    (hlen : m.distance j ≤ tr.length) :
    ∃ pre post m', tr = pre ++ post ∧ pre.length ≤ m.distance j ∧
      (system x).Run (some m) pre (some m') ∧ m'.current = j := by
  have hwait : (∃ pre post m', tr = pre ++ post ∧ pre.length ≤ m.distance j ∧
      (system x).Run (some m) pre (some m') ∧ m'.current = j) ∨
      ∃ m', s = some m' ∧ (system x).Run (some m) tr (some m') ∧ m'.tasks j = .ready ∧
        m'.distance j + tr.length ≤ m.distance j := by
    refine hrun.history (I := fun tr s => (∃ pre post m', tr = pre ++ post ∧
      pre.length ≤ m.distance j ∧ (system x).Run (some m) pre (some m') ∧ m'.current = j) ∨
      ∃ m', s = some m' ∧ (system x).Run (some m) tr (some m') ∧ m'.tasks j = .ready ∧
        m'.distance j + tr.length ≤ m.distance j) (.inr ⟨m, rfl, .nil _, hready, le_rfl⟩) ?_
    rintro tr s e s' (⟨pre, post, m', rfl, hpre⟩ | ⟨m₁, rfl, hrun₁, hready₁, hdist⟩) hs
    · exact .inl ⟨pre, post ++ [e], m', List.append_assoc .., hpre⟩
    · obtain ⟨hinv, hnum, -⟩ := inv_of_run hx h hrun₁ m₁ rfl
      obtain ⟨m₂, rfl, hlt, hcur⟩ := Step.nearer hx hinv (hnum ▸ hj) hready₁ hs
      have hle : (tr ++ [e]).length + m₂.distance j ≤ m.distance j := by
        rw [List.length_append, List.length_singleton]
        omega
      rcases hcur with hcur | hcur
      · exact .inl ⟨tr ++ [e], [], m₂, (List.append_nil _).symm, by omega, hrun₁.snoc hs, hcur⟩
      · exact .inr ⟨m₂, rfl, hrun₁.snoc hs, hcur, by omega⟩
  rcases hwait with hrun' | ⟨m', rfl, hrun', hready', hdist⟩
  · exact hrun'
  · -- at distance zero it would be the current task
    have hzero : m'.distance j = 0 := by omega
    obtain ⟨hinv, hnum, -⟩ := inv_of_run hx h hrun' m' rfl
    have hcur : j = m'.current := by
      have hlt := hinv.current_lt
      rw [TaskManagerInner.distance] at hzero
      split at hzero <;> omega
    rw [hcur, hinv.running] at hready'
    cases hready'

/-- **The scheduler is fair.** After any yields, timer interrupts and exits of the tasks that were
run:
* exactly one task is `Running`, the current one, and every other one is `Ready` or `Exited`;
* a task that is `Ready` is run within the next `num_app - 1` switches, as many as it is places
  away;
* a task that has exited is never run again;
* the kernel shuts down exactly when a task exits and all others have done so. -/
theorem run_roundRobin {numApp : Nat} (hx : Meets x) (hpos : 0 < numApp)
    (hrun : (system x).Run (some (x.runFirstTask (.start numApp))) tr (some m)) :
    (m.current < numApp ∧ ∀ i < numApp,
      (m.tasks i = .running ↔ i = m.current) ∧
      (i ≠ m.current → m.tasks i = .ready ∨ m.tasks i = .exited)) ∧
    (∀ j < numApp, m.tasks j = .ready → m.distance j < numApp ∧
      ∀ tr' s', (system x).Run (some m) tr' s' → m.distance j ≤ tr'.length →
        ∃ pre post m', tr' = pre ++ post ∧ pre.length ≤ m.distance j ∧
          (system x).Run (some m) pre (some m') ∧ m'.current = j) ∧
    (∀ j < numApp, m.tasks j = .exited → ∀ tr' m', (system x).Run (some m) tr' (some m') →
      m'.tasks j = .exited ∧ m'.current ≠ j) ∧
    ∀ e, (system x).step (some m) e none ↔
      e = .exit ∧ ∀ j < numApp, j ≠ m.current → m.tasks j = .exited := by
  obtain ⟨h, hnum, -⟩ := inv_of_run hx (inv_first hx hpos) hrun m rfl
  rw [hx.first] at hnum
  change m.numApp = numApp at hnum
  subst hnum
  refine ⟨⟨h.current_lt, fun i hi => ⟨⟨fun hrunning => ?_, ?_⟩, h.other i hi⟩⟩,
    fun j hj hready => ⟨?_, fun tr' s' hrun' hlen => ?_⟩, fun j hj hexited tr' m' hrun' => ?_,
    fun e => h.step_none_iff hx⟩
  · by_contra hne
    rcases h.other i hi hne with h' | h' <;> rw [hrunning] at h' <;> cases h'
  · rintro rfl
    exact h.running
  · have hlt := h.current_lt
    rw [TaskManagerInner.distance]
    split <;> omega
  · exact run_within_distance hx h hj hready hrun' hlen
  · obtain ⟨hinv, -, hkeep⟩ := inv_of_run hx h hrun' m' rfl
    refine ⟨hkeep j hexited, ?_⟩
    rintro rfl
    have hj' := hkeep _ hexited
    rw [hinv.running] at hj'
    cases hj'

/-- Of three tasks the first one has yielded and the second one has exited; the third one is run,
and then the first one again, never the second one. -/
theorem run_roundRobin_three : ∃ m,
    (system scan).Run (some (scan.runFirstTask (.start 3))) [.suspend, .exit] (some m) ∧
    m.current = 2 ∧ m.tasks 1 = .exited ∧ (∀ tr' m', (system scan).Run (some m) tr' (some m') →
      m'.current ≠ 1) ∧
    ∀ e s', (system scan).Run (some m) [e] s' →
      ∃ pre post m', [e] = pre ++ post ∧ pre.length ≤ 1 ∧
        (system scan).Run (some m) pre (some m') ∧ m'.current = 0 := by
  have hsuspend : (system scan).step (some (scan.runFirstTask (.start 3))) .suspend
      (suspendCurrentAndRunNext scan (scan.runFirstTask (.start 3))) := Step.suspend _
  obtain ⟨m₁, hm₁⟩ : ∃ m₁, suspendCurrentAndRunNext scan (scan.runFirstTask (.start 3)) = some m₁ :=
    ⟨_, rfl⟩
  obtain ⟨m₂, hm₂⟩ : ∃ m₂, exitCurrentAndRunNext scan m₁ = some m₂ := by
    cases hm₁
    exact ⟨_, rfl⟩
  have hexit : (system scan).step (some m₁) .exit (exitCurrentAndRunNext scan m₁) := Step.exit _
  rw [hm₁] at hsuspend
  rw [hm₂] at hexit
  have hrun : (system scan).Run (some (scan.runFirstTask (.start 3))) [.suspend, .exit]
      (some m₂) :=
    .snoc (.snoc (.nil _) hsuspend) hexit
  have hthird : m₂.current = 2 ∧ m₂.tasks 1 = .exited ∧ m₂.tasks 0 = .ready ∧
      m₂.distance 0 = 1 := by
    cases hm₁
    cases hm₂
    exact ⟨rfl, rfl, rfl, rfl⟩
  have hall := run_roundRobin meets_scan (by decide) hrun
  refine ⟨m₂, hrun, hthird.1, hthird.2.1, fun tr' m' hrun' => ?_, fun e s' hrun' => ?_⟩
  · exact (hall.2.2.1 1 (by decide) hthird.2.1 tr' m' hrun').2
  · have hfirst := (hall.2.1 0 (by decide) hthird.2.2.1).2 [e] s' hrun'
    rw [hthird.2.2.2] at hfirst
    exact hfirst (Nat.le_refl 1)

end TinyOS.RoundRobin
