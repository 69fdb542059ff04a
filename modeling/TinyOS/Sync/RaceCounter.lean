import TinyOS.Lib.Transition

/-!
# The counter program

`race_counter.rs` of `phase_3_sync`, with any number of threads and of iterations in place of its
constants. The load and the store of `COUNTER += 1` are steps of their own, main polls `COUNTER`
without the lock, and the threads take their steps in any order. `sys_mutex_lock` and
`sys_mutex_unlock` are taken as mutual exclusion.

The invariant says that `COUNTER` is the sum of the increments of the workers, where a worker has
made one for each finished iteration and one more between its store and its unlock.
-/

namespace TinyOS.RaceCounter

open Transition

/-- `THREADS` and `ITERS`: how many workers there are, and how often each adds one. -/
structure Config where
  threads : Nat
  iters : Nat
  total_lt : threads * iters < 2 ^ 64

/-- The next step of a worker: `sys_mutex_lock`, the load and the store of the increment,
`sys_mutex_unlock`. -/
inductive Pc where
  | idle
  | lock
  | load
  | store
  | unlock
  | done
  deriving DecidableEq

/-- A worker: its next step, its loop counter and the value it loaded last. -/
structure Worker where
  pc : Pc
  i : Nat
  tmp : Nat

/-- What main does next: create the mutex, spawn the workers, wait for them and return. -/
inductive Main where
  | createMutex
  | spawn (k : Nat)
  | poll
  | test (counter : Nat)
  | loadCounter
  | returned (code : Int)

/-- The shared variables and the threads. `completed` counts the critical sections that have been
left. -/
structure State (cfg : Config) where
  counter : Nat
  mutex : Option (Fin cfg.threads)
  worker : Fin cfg.threads → Worker
  main : Main
  completed : Nat

variable {cfg : Config}

/-- The head of the loop `for _ in 0..ITERS`: a worker begins iteration `i` there, or is done. -/
def iteration (cfg : Config) (i : Nat) : Worker :=
  if i < cfg.iters then ⟨.lock, i, 0⟩ else ⟨.done, i, 0⟩

/-- The state with one of the workers changed, and all that they share as it was. -/
def State.setWorker (s : State cfg) (t : Fin cfg.threads) (w : Worker) : State cfg :=
  { s with worker := Function.update s.worker t w }

/-- One step of `worker`; `none` where the thread is blocked, not started or at its end. -/
def workerStep (t : Fin cfg.threads) (s : State cfg) : Option (State cfg) :=
  let w := s.worker t
  match w.pc with
  | .idle => none
  | .lock =>
    if s.mutex = none then some ({ s with mutex := some t }.setWorker t { w with pc := .load })
    else none
  | .load => some (s.setWorker t { w with pc := .store, tmp := s.counter })
  | .store =>
    some ({ s with counter := (w.tmp + 1) % 2 ^ 64 }.setWorker t { w with pc := .unlock })
  | .unlock =>
    some ({ s with mutex := none, completed := s.completed + 1 }.setWorker t
      (iteration cfg (w.i + 1)))
  | .done => none

/-- One step of `main`; `none` while it waits for a worker, and after it has returned. -/
def mainStep (s : State cfg) : Option (State cfg) :=
  match s.main with
  | .createMutex => some { s with mutex := none, main := .spawn 0 }
  | .spawn k =>
    if h : k < cfg.threads then
      some ({ s with main := .spawn (k + 1) }.setWorker ⟨k, h⟩ (iteration cfg 0))
    else some { s with main := .poll }
  | .poll => some { s with main := .test s.counter }
  | .test counter =>
    some { s with main := if counter < cfg.threads * cfg.iters then .poll else .loadCounter }
  | .loadCounter =>
    some { s with main := .returned (if s.counter = cfg.threads * cfg.iters then 0 else -1) }
  | .returned _ => none

/-- Who takes a step, main or one of the workers. -/
inductive Thread (cfg : Config) where
  | main
  | worker (t : Fin cfg.threads)

/-- One step of a thread; `none` if the thread cannot take one. -/
def step (t : Thread cfg) (s : State cfg) : Option (State cfg) :=
  match t with
  | .main => mainStep s
  | .worker t => workerStep t s

/-- The statics before `main` runs, with all workers idle and the counter at zero. -/
def start (cfg : Config) : State cfg where
  counter := 0
  mutex := none
  worker _ := ⟨.idle, 0, 0⟩
  main := .createMutex
  completed := 0

/-- The program under any schedule, one of the threads taking a step at a time. -/
def system (cfg : Config) : System (State cfg) (Thread cfg) where
  init s := s = start cfg
  step s t s' := step t s = some s'

/-! ## The invariant -/

/-- The increments a worker has stored: one for each iteration, from its store on. -/
def Worker.increments (w : Worker) : Nat := w.i + if w.pc = .unlock then 1 else 0

/-- What holds of a worker, `COUNTER` and the mutex, by the step the worker is at. -/
def WorkerOk (cfg : Config) (counter : Nat) (mutex : Option (Fin cfg.threads))
    (t : Fin cfg.threads) (w : Worker) : Prop :=
  match w.pc with
  | .idle => mutex ≠ some t ∧ w.i = 0
  | .lock => mutex ≠ some t ∧ w.i < cfg.iters
  | .load => mutex = some t ∧ w.i < cfg.iters
  | .store => mutex = some t ∧ w.i < cfg.iters ∧ w.tmp = counter
  | .unlock => mutex = some t ∧ w.i < cfg.iters
  | .done => mutex ≠ some t ∧ w.i ≤ cfg.iters

/-- What main has established before each of its steps: who has been spawned, and how far the
counter is. -/
def MainOk (cfg : Config) (counter : Nat) (worker : Fin cfg.threads → Worker) : Main → Prop
  | .createMutex => ∀ t, (worker t).pc = .idle
  | .spawn k => ∀ t, k ≤ t.val → (worker t).pc = .idle
  | .poll => True
  | .test c => c ≤ counter
  | .loadCounter => cfg.threads * cfg.iters ≤ counter
  | .returned code => code = 0 ∧ cfg.threads * cfg.iters ≤ counter

/-- The invariant: the counter is the sum of the increments, and a worker about to store has
loaded the last value. -/
structure Inv (s : State cfg) : Prop where
  counter : s.counter = ∑ t, (s.worker t).increments
  completed : s.completed = ∑ t, (s.worker t).i
  worker : ∀ t, WorkerOk cfg s.counter s.mutex t (s.worker t)
  main : MainOk cfg s.counter s.worker s.main

variable {counter counter' : Nat} {mutex mutex' : Option (Fin cfg.threads)} {t : Fin cfg.threads}
  {w : Worker} {s s' : State cfg}

/-- No worker makes more increments than it has iterations, and so the sum of them is bounded. -/
theorem WorkerOk.increments_le (h : WorkerOk cfg counter mutex t w) : w.increments ≤ cfg.iters := by
  obtain ⟨pc, i, tmp⟩ := w
  unfold WorkerOk at h
  unfold Worker.increments
  cases pc with
  | idle => have := h.2; simp_all
  | unlock => exact h.2
  | lock | load => exact Nat.le_of_lt h.2
  | store => exact Nat.le_of_lt h.2.1
  | done => exact h.2

/-- A worker that does not hold the mutex does not depend on `COUNTER`. -/
theorem WorkerOk.of_not_held (h : WorkerOk cfg counter mutex t w) (hm : mutex ≠ some t)
    (hm' : mutex' ≠ some t) : WorkerOk cfg counter' mutex' t w := by
  obtain ⟨pc, i, tmp⟩ := w
  unfold WorkerOk at h ⊢
  cases pc with
  | idle | lock | done => exact ⟨hm', h.2⟩
  | load | store | unlock => exact absurd h.1 hm

/-- The head of the loop: a worker there does not hold the mutex. -/
theorem workerOk_iteration {i : Nat} (hm : mutex ≠ some t) (hi : i ≤ cfg.iters) :
    WorkerOk cfg counter mutex t (iteration cfg i) := by
  unfold iteration
  split
  · rename_i hlt
    exact ⟨hm, hlt⟩
  · exact ⟨hm, hi⟩

/-- The loop counter at the head of the loop, whether or not there is a next iteration. -/
theorem i_iteration (cfg : Config) (i : Nat) : (iteration cfg i).i = i := by
  unfold iteration
  split <;> rfl

/-- At the head of the loop a worker has stored one increment for each iteration before. -/
theorem increments_iteration (cfg : Config) (i : Nat) : (iteration cfg i).increments = i := by
  unfold iteration
  split <;> rfl

/-- A sum over the workers after one of them changed. -/
theorem sum_update_add (f : Worker → Nat) (worker : Fin cfg.threads → Worker) (t : Fin cfg.threads)
    (w : Worker) :
    (∑ u, f (Function.update worker t w u)) + f (worker t) = (∑ u, f (worker u)) + f w := by
  have h := Finset.sum_update_of_mem (Finset.mem_univ t) (fun u => f (worker u)) (f w)
  rw [← Finset.add_sum_erase _ (fun u => f (worker u)) (Finset.mem_univ t)]
  rw [Finset.sdiff_singleton_eq_erase] at h
  have hcomp : ∀ u, f (Function.update worker t w u) =
      Function.update (fun u => f (worker u)) t (f w) u := by
    intro u
    exact Function.apply_update (fun _ => f) worker t w u
  rw [Finset.sum_congr rfl fun u _ => hcomp u, h]
  omega

/-- `COUNTER` never exceeds the number of all iterations, since each adds one and only once. -/
theorem Inv.counter_le (h : Inv s) : s.counter ≤ cfg.threads * cfg.iters := by
  rw [h.counter]
  calc ∑ t, (s.worker t).increments ≤ ∑ _t : Fin cfg.threads, cfg.iters :=
        Finset.sum_le_sum fun t _ => (h.worker t).increments_le
    _ = cfg.threads * cfg.iters := by rw [Finset.sum_const, Finset.card_fin, smul_eq_mul]

/-- As long as a worker has an increment left, `COUNTER` is below that number. -/
theorem Inv.counter_lt (h : Inv s) (ht : (s.worker t).increments < cfg.iters) :
    s.counter < cfg.threads * cfg.iters := by
  rw [h.counter]
  calc ∑ t, (s.worker t).increments < ∑ _t : Fin cfg.threads, cfg.iters :=
        Finset.sum_lt_sum (fun t _ => (h.worker t).increments_le) ⟨t, Finset.mem_univ t, ht⟩
    _ = cfg.threads * cfg.iters := by rw [Finset.sum_const, Finset.card_fin, smul_eq_mul]

/-- Main's knowledge survives what the workers do: they do not become idle again, and `COUNTER`
does not decrease. -/
theorem MainOk.mono {worker worker' : Fin cfg.threads → Worker} {main : Main}
    (h : MainOk cfg counter worker main)
    (hidle : ∀ t, (worker t).pc = .idle → (worker' t).pc = .idle) (hc : counter ≤ counter') :
    MainOk cfg counter' worker' main := by
  cases main with
  | createMutex => exact fun t => hidle t (h t)
  | spawn k => exact fun t hk => hidle t (h t hk)
  | poll => trivial
  | test c => exact le_trans h hc
  | loadCounter => exact le_trans h hc
  | returned code => exact ⟨h.1, le_trans h.2 hc⟩

/-! ## The steps of the workers -/

/-- A worker moves on. The other workers keep what holds of them: either neither `COUNTER` nor the
mutex changes, or they do not hold the mutex before and after. -/
theorem Inv.update (h : Inv s) {completed : Nat} (hrun : (s.worker t).pc ≠ .idle)
    (hw : WorkerOk cfg counter mutex t w)
    (hothers : counter = s.counter ∧ mutex = s.mutex ∨
      ∀ u ≠ t, s.mutex ≠ some u ∧ mutex ≠ some u)
    (hcounter : counter + (s.worker t).increments = s.counter + w.increments)
    (hcompleted : completed + (s.worker t).i = s.completed + w.i)
    (hle : s.counter ≤ counter) :
    Inv { s with
      counter := counter
      mutex := mutex
      completed := completed
      worker := Function.update s.worker t w } := by
  have hinc := sum_update_add Worker.increments s.worker t w
  have hi := sum_update_add Worker.i s.worker t w
  refine ⟨?_, ?_, fun u => ?_, h.main.mono (fun u hu => ?_) hle⟩
  · have := h.counter
    dsimp only
    omega
  · have := h.completed
    dsimp only
    omega
  · dsimp only
    rcases eq_or_ne u t with rfl | hut
    · rw [Function.update_self]
      exact hw
    · rw [Function.update_of_ne hut]
      rcases hothers with ⟨rfl, rfl⟩ | hothers
      · exact h.worker u
      · exact (h.worker u).of_not_held (hothers u hut).1 (hothers u hut).2
  · rcases eq_or_ne u t with rfl | hut
    · exact absurd hu hrun
    · dsimp only
      rwa [Function.update_of_ne hut]

/-- **A step of a worker keeps the invariant**: while it holds the mutex, nobody else loads or
stores the counter. -/
theorem Inv.workerStep (h : Inv s) (hs : workerStep t s = some s') : Inv s' := by
  have hother {u : Fin cfg.threads} (hu : u ≠ t) : some t ≠ some u := by
    intro heq
    exact hu (Option.some.inj heq).symm
  have hw := h.worker t
  generalize hwt : s.worker t = w at hw
  obtain ⟨pc, i, tmp⟩ := w
  rw [WorkerOk] at hw
  rw [RaceCounter.workerStep, hwt] at hs
  cases pc with
  | idle | done => cases hs
  | lock =>
    dsimp only at hs hw
    split at hs
    · rename_i hfree
      cases hs
      refine h.update (hwt ▸ nofun) ⟨rfl, hw.2⟩ (.inr fun u hu => ⟨?_, hother hu⟩) ?_ ?_
        (le_refl _)
      · rw [hfree]
        exact nofun
      · rw [hwt]
        rfl
      · rw [hwt]
    · cases hs
  | load =>
    cases hs
    refine h.update (hwt ▸ nofun) ⟨hw.1, hw.2, rfl⟩ (.inl ⟨rfl, rfl⟩) ?_ ?_ (le_refl _)
    · rw [hwt]
      rfl
    · rw [hwt]
  | store =>
    obtain ⟨hm, hlt, rfl⟩ := hw
    have hbound : s.counter < cfg.threads * cfg.iters := by
      refine h.counter_lt (t := t) ?_
      rw [hwt]
      exact hlt
    have hmod : (s.counter + 1) % 2 ^ 64 = s.counter + 1 :=
      Nat.mod_eq_of_lt (Nat.lt_of_le_of_lt hbound cfg.total_lt)
    cases hs
    rw [hmod]
    refine h.update (hwt ▸ nofun) ⟨hm, hlt⟩ (.inr fun u hu => ?_) ?_ ?_ (Nat.le_succ _)
    · rw [hm]
      exact ⟨hother hu, hother hu⟩
    · rw [hwt]
      simp [Worker.increments]
      omega
    · rw [hwt]
  | unlock =>
    cases hs
    refine h.update (hwt ▸ nofun) (workerOk_iteration nofun hw.2) (.inr fun u hu => ⟨?_, nofun⟩)
      ?_ ?_ (le_refl _)
    · rw [hw.1]
      exact hother hu
    · rw [hwt, increments_iteration]
      rfl
    · rw [hwt, i_iteration]
      dsimp only
      omega

/-! ## The steps of main -/

/-- **A step of main keeps the invariant**, spawning the workers and waiting for them. -/
theorem Inv.mainStep (h : Inv s) (hs : mainStep s = some s') : Inv s' := by
  have hm := h.main
  rw [RaceCounter.mainStep] at hs
  cases hmain : s.main with
  | createMutex =>
    rw [hmain] at hs hm
    cases hs
    refine ⟨h.counter, h.completed, fun t => ?_, fun t _ => hm t⟩
    have ht := h.worker t
    have hidle := hm t
    refine ht.of_not_held ?_ nofun
    rw [WorkerOk, hidle] at ht
    exact ht.1
  | spawn k =>
    rw [hmain] at hs hm
    dsimp only at hs
    split at hs
    · rename_i hk
      cases hs
      have hidle : (s.worker ⟨k, hk⟩).pc = .idle := hm ⟨k, hk⟩ (le_refl k)
      have hw := h.worker ⟨k, hk⟩
      rw [WorkerOk, hidle] at hw
      have hinc := sum_update_add Worker.increments s.worker ⟨k, hk⟩ (iteration cfg 0)
      have hi := sum_update_add Worker.i s.worker ⟨k, hk⟩ (iteration cfg 0)
      rw [increments_iteration, Worker.increments, hidle, hw.2] at hinc
      rw [i_iteration, hw.2] at hi
      refine ⟨h.counter.trans hinc.symm, h.completed.trans hi.symm, fun u => ?_, fun u hu => ?_⟩
      · dsimp only [State.setWorker]
        rcases eq_or_ne u ⟨k, hk⟩ with rfl | hut
        · rw [Function.update_self]
          exact workerOk_iteration hw.1 (Nat.zero_le _)
        · rw [Function.update_of_ne hut]
          exact h.worker u
      · dsimp only [State.setWorker]
        rw [Function.update_of_ne (by rintro rfl; exact absurd hu (by dsimp only; omega))]
        exact hm u (Nat.le_of_succ_le hu)
    · cases hs
      exact ⟨h.counter, h.completed, h.worker, trivial⟩
  | poll =>
    rw [hmain] at hs
    cases hs
    exact ⟨h.counter, h.completed, h.worker, le_refl _⟩
  | test c =>
    rw [hmain] at hs hm
    cases hs
    refine ⟨h.counter, h.completed, h.worker, ?_⟩
    dsimp only
    split
    · trivial
    · rename_i hge
      exact le_trans (Nat.le_of_not_lt hge) hm
  | loadCounter =>
    rw [hmain] at hs hm
    cases hs
    refine ⟨h.counter, h.completed, h.worker, ?_⟩
    exact ⟨if_pos (le_antisymm h.counter_le hm), hm⟩
  | returned code =>
    rw [hmain] at hs
    cases hs

/-! ## The program -/

/-- The invariant holds before `main` runs: nothing has been added. -/
theorem inv_start (cfg : Config) : Inv (start cfg) where
  counter := Finset.sum_const_zero.symm
  completed := Finset.sum_const_zero.symm
  worker _ := ⟨nofun, rfl⟩
  main _ := rfl

/-- The invariant holds in every state the program can reach. -/
theorem inv_of_reachable (h : (system cfg).Reachable s) : Inv s := by
  refine h.invariant (I := Inv) ?_ ?_
  · rintro s rfl
    exact inv_start cfg
  · intro s t s' hs hstep
    cases t with
    | main => exact hs.mainStep hstep
    | worker t => exact hs.workerStep hstep

/-- With the mutex free no worker is between its store and its unlock. -/
theorem Inv.increments_eq (h : Inv s) (hfree : s.mutex = none) (t : Fin cfg.threads) :
    (s.worker t).increments = (s.worker t).i := by
  have hw := h.worker t
  have hpc : (s.worker t).pc ≠ .unlock := by
    intro hpc
    rw [WorkerOk, hpc, hfree] at hw
    cases hw.1
  rw [Worker.increments, if_neg hpc, Nat.add_zero]

/-- **No update is lost.** Under every schedule `COUNTER` is the number of completed critical
sections whenever the mutex is free, it never exceeds the number of all iterations, and main can
return only 0, and only when all iterations have been counted. -/
theorem reachable_counter (h : (system cfg).Reachable s) :
    (s.mutex = none → s.counter = s.completed) ∧
    s.counter ≤ cfg.threads * cfg.iters ∧
    ∀ code, s.main = .returned code → code = 0 ∧ s.counter = cfg.threads * cfg.iters := by
  have hinv := inv_of_reachable h
  refine ⟨fun hfree => ?_, hinv.counter_le, fun code hcode => ?_⟩
  · rw [hinv.counter, hinv.completed]
    exact Finset.sum_congr rfl fun t _ => hinv.increments_eq hfree t
  · have hmain := hinv.main
    rw [hcode] at hmain
    exact ⟨hmain.1, le_antisymm hinv.counter_le hmain.2⟩

/-- Two workers with two iterations each. The first one is between its iterations while the second
one makes both of its own, and main polls between the loads and the stores. -/
theorem reachable_counter_two : ∃ s : State ⟨2, 2, by decide⟩,
    (system ⟨2, 2, by decide⟩).Reachable s ∧ s.main = .returned 0 ∧ s.completed = 4 ∧
    s.counter = 4 := by
  let cfg : Config := ⟨2, 2, by decide⟩
  let ts : List (Thread cfg) := [.main, .main, .worker 0, .main, .main, .main, .worker 0, .main,
    .worker 0, .main, .worker 0, .worker 1, .main, .worker 1, .worker 1, .main, .worker 1,
    .worker 1, .worker 1, .main, .worker 1, .worker 1, .worker 0, .worker 0, .worker 0, .main,
    .worker 0, .main, .main]
  obtain ⟨s, hs⟩ : ∃ s, ts.foldlM (fun s t => step t s) (start cfg) = some s := ⟨_, rfl⟩
  have hreach : (system cfg).Reachable s :=
    .of_schedule (fun _ _ _ h => h) (.of_init rfl) ts hs
  cases hs
  exact ⟨_, hreach, rfl, rfl, ((reachable_counter hreach).2.2 0 rfl).2⟩

end TinyOS.RaceCounter
