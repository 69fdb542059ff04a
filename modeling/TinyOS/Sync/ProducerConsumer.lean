import TinyOS.Lib.Fifo

/-!
# The bounded-buffer program

`producer_consumer.rs` of `phase_3_sync`: one producer and one consumer over a ring buffer, two
counting semaphores and a mutex, and a main thread that polls the counters without the lock. Every
load and every store of `BUF`, `HEAD`, `TAIL`, `PRODUCED` and `CONSUMED` is a step of its own, and
the threads take their steps in any order.

Producer and consumer run the same ten steps on different variables, so they are one program with a
`Role`. The invariant counts, for each of these steps, how often a worker has taken it
(`Worker.past`); the semaphores, the indices and the counters are functions of these counts.
-/

namespace TinyOS.ProducerConsumer

open Transition

/-- `BUF_SIZE` and `N_ITEMS`, of which the first is not zero. -/
structure Config where
  bufSize : Nat
  nItems : Nat
  bufSize_pos : 0 < bufSize
  nItems_lt : nItems < 2 ^ 64

/-- The two worker threads of the program, of which the one puts items and the other takes them. -/
inductive Role where
  | producer
  | consumer
  deriving DecidableEq

/-- The other one of the two worker threads, whose semaphore a worker ups. -/
def Role.other : Role → Role
  | .producer => .consumer
  | .consumer => .producer

/-- The next step of a worker: `sem_down`, `mutex_lock`, the load of the index for the access, the
access to `BUF`, the load and the store of the index increment, the load and the store of the
counter increment, `mutex_unlock`, `sem_up`. -/
inductive Pc where
  | idle
  | down
  | lock
  | loadIndex
  | access
  | reloadIndex
  | storeIndex
  | loadCount
  | storeCount
  | unlock
  | up
  | done
  deriving DecidableEq

/-- A worker: its next step, its loop counter and the value it loaded last. -/
structure Worker where
  pc : Pc
  i : Nat
  tmp : Nat

/-- What main does next: initialise, spawn the workers, wait for them, and return. -/
inductive Main where
  | createEmpty
  | createFull
  | createMutex
  | spawnProducer
  | spawnConsumer
  | poll
  | test (consumed : Nat)
  | loadProduced
  | loadConsumed
  | returned (code : Int)
  deriving DecidableEq

/-- The shared variables and the threads. `index` is `TAIL` for the producer and `HEAD` for the
consumer, `count` is `PRODUCED` and `CONSUMED`, and `sem` is the semaphore a role takes from,
`EMPTY` and `FULL`. `reads` records the values the consumer has loaded from `BUF`. -/
structure State (cfg : Config) where
  buf : Fin cfg.bufSize → Nat
  index : Role → Nat
  count : Role → Nat
  sem : Role → Nat
  mutex : Option Role
  worker : Role → Worker
  main : Main
  reads : List Nat

namespace State

variable {cfg : Config}

/-- `HEAD`, the index at which the consumer takes the next item. -/
def head (s : State cfg) : Nat := s.index .consumer

/-- `TAIL`, the index at which the producer puts the next item. -/
def tail (s : State cfg) : Nat := s.index .producer

end State

variable {cfg : Config}

/-- The place of item `k` in `BUF`, round and round. -/
def place (cfg : Config) (k : Nat) : Fin cfg.bufSize :=
  ⟨k % cfg.bufSize, Nat.mod_lt _ cfg.bufSize_pos⟩

/-- The head of the loop `for i in 0..N_ITEMS`: a worker begins iteration `i` there, or is done. -/
def iteration (cfg : Config) (i : Nat) : Worker :=
  if i < cfg.nItems then ⟨.down, i, 0⟩ else ⟨.done, i, 0⟩

/-- The state with one of the two workers changed, and all that they share as it was. -/
def State.setWorker (s : State cfg) (r : Role) (w : Worker) : State cfg :=
  { s with worker := Function.update s.worker r w }

/-- The access to `BUF`: the producer stores its loop counter, the consumer loads a value. -/
def access (s : State cfg) : Role → State cfg
  | .producer =>
    let w := s.worker .producer
    { s with buf := Function.update s.buf (place cfg w.tmp) w.i }
  | .consumer => { s with reads := s.reads ++ [s.buf (place cfg (s.worker .consumer).tmp)] }

/-- One step of `producer` or `consumer`; `none` where the thread is blocked, not started or at its
end. -/
def workerStep (r : Role) (s : State cfg) : Option (State cfg) :=
  let w := s.worker r
  match w.pc with
  | .idle => none
  | .down =>
    if s.sem r = 0 then none
    else some ({ s with sem := Function.update s.sem r (s.sem r - 1) }.setWorker r
      { w with pc := .lock })
  | .lock =>
    if s.mutex = none then
      some ({ s with mutex := some r }.setWorker r { w with pc := .loadIndex })
    else none
  | .loadIndex => some (s.setWorker r { w with pc := .access, tmp := s.index r })
  | .access => some ((access s r).setWorker r { w with pc := .reloadIndex })
  | .reloadIndex => some (s.setWorker r { w with pc := .storeIndex, tmp := s.index r })
  | .storeIndex =>
    some ({ s with index := Function.update s.index r ((w.tmp + 1) % 2 ^ 64) }.setWorker r
      { w with pc := .loadCount })
  | .loadCount => some (s.setWorker r { w with pc := .storeCount, tmp := s.count r })
  | .storeCount =>
    some ({ s with count := Function.update s.count r ((w.tmp + 1) % 2 ^ 64) }.setWorker r
      { w with pc := .unlock })
  | .unlock => some ({ s with mutex := none }.setWorker r { w with pc := .up })
  | .up =>
    some ({ s with sem := Function.update s.sem r.other (s.sem r.other + 1) }.setWorker r
      (iteration cfg (w.i + 1)))
  | .done => none

/-- One step of `main`; `none` while it waits for a worker, and after it has returned. -/
def mainStep (s : State cfg) : Option (State cfg) :=
  match s.main with
  | .createEmpty =>
    some { s with sem := Function.update s.sem .producer cfg.bufSize, main := .createFull }
  | .createFull => some { s with sem := Function.update s.sem .consumer 0, main := .createMutex }
  | .createMutex => some { s with mutex := none, main := .spawnProducer }
  | .spawnProducer => some ({ s with main := .spawnConsumer }.setWorker .producer (iteration cfg 0))
  | .spawnConsumer => some ({ s with main := .poll }.setWorker .consumer (iteration cfg 0))
  | .poll => some { s with main := .test (s.count .consumer) }
  | .test consumed =>
    some { s with main := if consumed < cfg.nItems then .poll else .loadProduced }
  | .loadProduced =>
    some { s with main := if s.count .producer = cfg.nItems then .loadConsumed else .returned (-1) }
  | .loadConsumed =>
    some { s with main := .returned (if s.count .consumer = cfg.nItems then 0 else -1) }
  | .returned _ => none

/-- Who takes a step, main or one of the workers. -/
inductive Thread where
  | main
  | worker (r : Role)

/-- One step of a thread; `none` if the thread cannot take one. -/
def step (t : Thread) (s : State cfg) : Option (State cfg) :=
  match t with
  | .main => mainStep s
  | .worker r => workerStep r s

/-- The statics before `main` runs, with both workers idle and nothing initialised yet. -/
def start (cfg : Config) : State cfg where
  buf _ := 0
  index _ := 0
  count _ := 0
  sem _ := 0
  mutex := none
  worker _ := ⟨.idle, 0, 0⟩
  main := .createEmpty
  reads := []

/-- The program under any schedule, one of the threads taking a step at a time. -/
def system (cfg : Config) : System (State cfg) Thread where
  init s := s = start cfg
  step s t s' := step t s = some s'

/-! ## Counting steps -/

/-- The position of a step in the loop body, to say what a worker has done of its iteration. -/
def Pc.position : Pc → Nat
  | .idle | .down | .done => 0
  | .lock => 1
  | .loadIndex => 2
  | .access => 3
  | .reloadIndex => 4
  | .storeIndex => 5
  | .loadCount => 6
  | .storeCount => 7
  | .unlock => 8
  | .up => 9

/-- How often the worker has got past position `k - 1` of the loop body. -/
def Worker.past (w : Worker) (k : Nat) : Nat := w.i + if k ≤ w.pc.position then 1 else 0

/-- Being past a later position is being past an earlier one. -/
theorem Worker.past_antitone (w : Worker) {k l : Nat} (h : k ≤ l) : w.past l ≤ w.past k := by
  unfold Worker.past
  split <;> split <;> omega

/-- A worker has passed a point of its loop as often as it has begun the loop, or once more. -/
theorem Worker.past_le (w : Worker) (k : Nat) : w.i ≤ w.past k ∧ w.past k ≤ w.i + 1 := by
  unfold Worker.past
  split <;> omega

/-- A worker between `mutex_lock` and `mutex_unlock`, by the step it is at: it holds the mutex
there. -/
def Pc.Holds (pc : Pc) : Prop := 2 ≤ pc.position ∧ pc.position ≤ 8

/-- Whether a worker is there can be evaluated. -/
instance (pc : Pc) : Decidable pc.Holds := inferInstanceAs (Decidable (_ ∧ _))

/-! ## The invariant -/

/-- What holds of a worker and the two variables only it writes. -/
structure WorkerOk (cfg : Config) (w : Worker) (index count : Nat) : Prop where
  idle : w.pc = .idle → w.i = 0
  down : w.pc = .down → w.i < cfg.nItems
  done : w.pc = .done → w.i = cfg.nItems
  past_le : w.past 1 ≤ cfg.nItems
  index_eq : index = w.past 6
  count_eq : count = w.past 8
  tmpIndex : w.pc = .access ∨ w.pc = .storeIndex → w.tmp = index
  tmpCount : w.pc = .storeCount → w.tmp = count

/-- What main has established before each of its steps: what is initialised and who has been
spawned. -/
def MainOk (cfg : Config) (worker : Role → Worker) (consumed : Nat) : Main → Prop
  | .createEmpty => False
  | .createFull | .createMutex | .spawnProducer => ∀ r, (worker r).pc = .idle
  | .spawnConsumer => (worker .consumer).pc = .idle
  | .poll => True
  | .test c => c ≤ consumed
  | .loadProduced | .loadConsumed => cfg.nItems ≤ consumed
  | .returned code => code = 0 ∧ cfg.nItems ≤ consumed

/-- The initial value of the semaphore a role takes from. -/
def slots (cfg : Config) : Role → Nat
  | .producer => cfg.bufSize
  | .consumer => 0

/-- The invariant, from the creation of `EMPTY` on. Position 1 is behind `sem_down`, position 4
behind the access to `BUF`. -/
structure Inv (s : State cfg) : Prop where
  worker : ∀ r, WorkerOk cfg (s.worker r) (s.index r) (s.count r)
  sem : ∀ r, s.sem r + (s.worker r).past 1 = slots cfg r + (s.worker r.other).i
  mutex : ∀ r, s.mutex = some r ↔ (s.worker r).pc.Holds
  reads : s.reads = List.range ((s.worker .consumer).past 4)
  buf : ∀ k, (s.worker .consumer).past 4 ≤ k → k < (s.worker .producer).past 4 →
    s.buf (place cfg k) = k
  main : MainOk cfg s.worker (s.count .consumer) s.main

/-- What `EMPTY` counts: the slots the producer may still take. -/
theorem Inv.sem_empty {s : State cfg} (h : Inv s) :
    s.sem .producer + (s.worker .producer).past 1 = cfg.bufSize + (s.worker .consumer).i :=
  h.sem .producer

/-- What `FULL` counts: the items the consumer may still take. -/
theorem Inv.sem_full {s : State cfg} (h : Inv s) :
    s.sem .consumer + (s.worker .consumer).past 1 = (s.worker .producer).i :=
  (h.sem .consumer).trans (Nat.zero_add _)

/-- Main's knowledge survives what the workers do: they do not become idle again, and `CONSUMED`
does not decrease. -/
theorem MainOk.mono {worker worker' : Role → Worker} {c c' : Nat} {main : Main}
    (h : MainOk cfg worker c main) (hidle : ∀ r, (worker r).pc = .idle → (worker' r).pc = .idle)
    (hc : c ≤ c') : MainOk cfg worker' c' main := by
  cases main with
  | createEmpty => exact h
  | createFull | createMutex | spawnProducer => exact fun r => hidle r (h r)
  | spawnConsumer => exact hidle _ h
  | poll => trivial
  | test => exact le_trans h hc
  | loadProduced | loadConsumed => exact le_trans h hc
  | returned => exact ⟨h.1, le_trans h.2 hc⟩

/-- A function of a worker's state that an update keeps is kept for every worker. -/
theorem apply_update_eq {α : Type} {f : Worker → α} {worker : Role → Worker} {r : Role} {w : Worker}
    (h : f w = f (worker r)) (q : Role) : f (Function.update worker r w q) = f (worker q) := by
  rcases eq_or_ne q r with rfl | hq
  · rw [Function.update_self, h]
  · rw [Function.update_of_ne hq]

/-! ## The steps of the workers -/

/-- The workers' own variables after a step of one of them. -/
theorem Inv.worker_update {s : State cfg} (h : Inv s) {r : Role} {w : Worker} {index count : Nat}
    (hw : WorkerOk cfg w index count) (q : Role) :
    WorkerOk cfg (Function.update s.worker r w q) (Function.update s.index r index q)
      (Function.update s.count r count q) := by
  rcases eq_or_ne q r with rfl | hq
  · rw [Function.update_self, Function.update_self, Function.update_self]
    exact hw
  · rw [Function.update_of_ne hq, Function.update_of_ne hq, Function.update_of_ne hq]
    exact h.worker q

/-- Main's knowledge after a step of a worker: counters only grow, and no worker becomes idle
again. -/
theorem Inv.main_update {s : State cfg} (h : Inv s) {r : Role} {w : Worker} {count : Nat}
    (hrun : (s.worker r).pc ≠ .idle) (hcount : s.count r ≤ count) :
    MainOk cfg (Function.update s.worker r w) (Function.update s.count r count .consumer)
      s.main := by
  refine h.main.mono (fun q hq => ?_) ?_
  · rcases eq_or_ne q r with rfl | hqr
    · exact absurd hq hrun
    · rwa [Function.update_of_ne hqr]
  · rcases eq_or_ne .consumer r with rfl | hq
    · rwa [Function.update_self]
    · rw [Function.update_of_ne hq]

/-- Every step but the access to `BUF`: a worker moves on with its own variables, a semaphore or the
mutex. -/
theorem Inv.update {s : State cfg} (h : Inv s) {r : Role} {w : Worker} {index count : Nat}
    {sem : Role → Nat} {mutex : Option Role} (hrun : (s.worker r).pc ≠ .idle)
    (hw : WorkerOk cfg w index count) (h4 : w.past 4 = (s.worker r).past 4)
    (hcount : s.count r ≤ count)
    (hsem : ∀ q, sem q + (Function.update s.worker r w q).past 1 =
      slots cfg q + (Function.update s.worker r w q.other).i)
    (hmutex : ∀ q, mutex = some q ↔ (Function.update s.worker r w q).pc.Holds) :
    Inv { s with
      index := Function.update s.index r index
      count := Function.update s.count r count
      sem := sem
      mutex := mutex
      worker := Function.update s.worker r w } := by
  have hpast := apply_update_eq (f := fun w => w.past 4) h4
  refine ⟨h.worker_update hw, hsem, hmutex, ?_, fun k h1 h2 => h.buf k ?_ ?_,
    h.main_update hrun hcount⟩
  · rw [h.reads]
    exact congrArg List.range (hpast .consumer).symm
  · rwa [← hpast .consumer]
  · rwa [← hpast .producer]

/-- The semaphores of a step that takes neither and gives neither: their counts are right as
before. -/
theorem Inv.sem_update {s : State cfg} (h : Inv s) {r : Role} {w : Worker}
    (hi : w.i = (s.worker r).i) (h1 : w.past 1 = (s.worker r).past 1) (q : Role) :
    s.sem q + (Function.update s.worker r w q).past 1 =
      slots cfg q + (Function.update s.worker r w q.other).i := by
  rw [apply_update_eq (f := fun w => w.past 1) h1, apply_update_eq (f := fun w => w.i) hi]
  exact h.sem q

/-- The mutex of a step that neither takes nor gives it. -/
theorem Inv.mutex_update {s : State cfg} (h : Inv s) {r : Role} {w : Worker}
    (hpc : w.pc.Holds ↔ (s.worker r).pc.Holds) (q : Role) :
    s.mutex = some q ↔ (Function.update s.worker r w q).pc.Holds := by
  rw [apply_update_eq (f := fun w => w.pc.Holds) (propext hpc)]
  exact h.mutex q

/-- Inside the loop body the loop counter is below `N_ITEMS`. -/
theorem WorkerOk.i_lt {w : Worker} {index count : Nat} (h : WorkerOk cfg w index count)
    (hbody : 1 ≤ w.pc.position) : w.i < cfg.nItems := by
  have := h.past_le
  rw [Worker.past, if_pos hbody] at this
  exact this

/-- A worker moves to a place inside the loop body. -/
theorem WorkerOk.move {w : Worker} {index count : Nat} {pc : Pc} {tmp : Nat}
    (hlt : w.i < cfg.nItems) (hbody : 1 ≤ pc.position)
    (hindex : index = w.i + if 6 ≤ pc.position then 1 else 0)
    (hcount : count = w.i + if 8 ≤ pc.position then 1 else 0)
    (htmp : pc = .access ∨ pc = .storeIndex → tmp = index)
    (htmp' : pc = .storeCount → tmp = count) :
    WorkerOk cfg ⟨pc, w.i, tmp⟩ index count where
  idle h := by rw [show pc = .idle from h] at hbody; cases hbody
  down h := by rw [show pc = .down from h] at hbody; cases hbody
  done h := by rw [show pc = .done from h] at hbody; cases hbody
  past_le := by rw [Worker.past, if_pos hbody]; exact hlt
  index_eq := hindex
  count_eq := hcount
  tmpIndex := htmp
  tmpCount := htmp'

/-- The head of the loop: a worker there has done all of its iterations before. -/
theorem workerOk_iteration {i : Nat} (h : i ≤ cfg.nItems) : WorkerOk cfg (iteration cfg i) i i := by
  unfold iteration
  split
  · rename_i hlt
    refine ⟨nofun, fun _ => hlt, nofun, h, rfl, rfl, ?_, nofun⟩
    rintro (h | h) <;> cases h
  · rename_i hge
    refine ⟨nofun, nofun, fun _ => by dsimp only; omega, h, rfl, rfl, ?_, nofun⟩
    rintro (h | h) <;> cases h

/-- The loop counter at the head of the loop, whether or not there is a next iteration. -/
theorem i_iteration (cfg : Config) (i : Nat) : (iteration cfg i).i = i := by
  unfold iteration
  split <;> rfl

/-- At the head of the loop a worker has done nothing of the iteration yet. -/
theorem position_iteration (cfg : Config) (i : Nat) : (iteration cfg i).pc.position = 0 := by
  unfold iteration
  split <;> rfl

/-- At the head of the loop a worker is past nothing but its finished iterations. -/
theorem past_iteration (cfg : Config) (i : Nat) {k : Nat} (hk : 1 ≤ k) :
    (iteration cfg i).past k = i := by
  rw [Worker.past, position_iteration, i_iteration, if_neg (by omega), Nat.add_zero]

/-- At the head of the loop a worker does not hold the mutex. -/
theorem not_holds_iteration (cfg : Config) (i : Nat) : ¬ (iteration cfg i).pc.Holds := by
  intro h
  have := h.1
  rw [position_iteration] at this
  omega

/-- A worker's own variables before a step of the loop body. -/
theorem Inv.own {s : State cfg} (h : Inv s) {r : Role} {pc : Pc} (hpc : (s.worker r).pc = pc)
    (hbody : 1 ≤ pc.position) :
    (s.worker r).pc ≠ .idle ∧ (s.worker r).i < cfg.nItems ∧
      s.index r = (s.worker r).i + (if 6 ≤ pc.position then 1 else 0) ∧
      s.count r = (s.worker r).i + if 8 ≤ pc.position then 1 else 0 := by
  refine ⟨?_, (h.worker r).i_lt (hpc ▸ hbody), ?_, ?_⟩
  · rintro hidle
    rw [← hpc, hidle] at hbody
    cases hbody
  · rw [(h.worker r).index_eq, Worker.past, hpc]
  · rw [(h.worker r).count_eq, Worker.past, hpc]

/-- A step that changes no semaphore, no lock and not `BUF`. -/
theorem Inv.move {s : State cfg} (h : Inv s) {r : Role} {pc : Pc} (pc' : Pc) (tmp : Nat)
    {index count : Nat} (hpc : (s.worker r).pc = pc) (hbody : 1 ≤ pc.position)
    (hbody' : 1 ≤ pc'.position)
    (h4 : 4 ≤ pc'.position ↔ 4 ≤ pc.position) (hholds : pc'.Holds ↔ pc.Holds)
    (hindex : index = (s.worker r).i + if 6 ≤ pc'.position then 1 else 0)
    (hcount : count = (s.worker r).i + if 8 ≤ pc'.position then 1 else 0)
    (hle : s.count r ≤ count)
    (htmp : pc' = .access ∨ pc' = .storeIndex → tmp = index)
    (htmp' : pc' = .storeCount → tmp = count) :
    Inv { s with
      index := Function.update s.index r index
      count := Function.update s.count r count
      worker := Function.update s.worker r ⟨pc', (s.worker r).i, tmp⟩ } := by
  obtain ⟨hidle, hi, -⟩ := h.own hpc hbody
  refine h.update hidle (.move hi hbody' hindex hcount htmp htmp') ?_ hle
    (h.sem_update rfl ?_) (h.mutex_update ?_)
  · simp only [Worker.past, hpc, h4]
  · simp only [Worker.past, hpc, if_pos hbody, if_pos hbody']
  · rw [hpc]
    exact hholds

/-- A load into `tmp` keeps the invariant: it changes nothing that the threads share. -/
theorem Inv.load {s : State cfg} (h : Inv s) {r : Role} {pc : Pc} (pc' : Pc) (tmp : Nat)
    (hpc : (s.worker r).pc = pc) (hbody : 1 ≤ pc.position) (hbody' : 1 ≤ pc'.position)
    (hpast : ∀ k ∈ [4, 6, 8], k ≤ pc'.position ↔ k ≤ pc.position) (hholds : pc'.Holds ↔ pc.Holds)
    (htmp : pc' = .access ∨ pc' = .storeIndex → tmp = s.index r)
    (htmp' : pc' = .storeCount → tmp = s.count r) :
    Inv (s.setWorker r ⟨pc', (s.worker r).i, tmp⟩) := by
  obtain ⟨-, -, hindex, hcount⟩ := h.own hpc hbody
  simp only [← hpast 6 (by simp)] at hindex
  simp only [← hpast 8 (by simp)] at hcount
  have hnew := h.move pc' tmp hpc hbody hbody' (hpast 4 (by simp)) hholds hindex hcount le_rfl htmp
    htmp'
  simpa only [State.setWorker, Function.update_eq_self] using hnew

/-- No other worker holds the mutex while one does, as it has one owner at most. -/
theorem Inv.not_holds_of_ne {s : State cfg} (h : Inv s) {r q : Role} (hr : (s.worker r).pc.Holds)
    (hq : q ≠ r) : ¬ (s.worker q).pc.Holds := by
  intro hq'
  have := ((h.mutex r).mpr hr).symm.trans ((h.mutex q).mpr hq')
  exact hq (Option.some.inj this).symm

/-- `sem_down` of a semaphore that is not zero keeps the invariant. -/
theorem Inv.down {s : State cfg} (h : Inv s) {r : Role} (hpc : (s.worker r).pc = .down)
    (hpos : s.sem r ≠ 0) :
    Inv ({ s with sem := Function.update s.sem r (s.sem r - 1) }.setWorker r
      { s.worker r with pc := .lock }) := by
  have hidle : (s.worker r).pc ≠ .idle := by rw [hpc]; nofun
  have hw := h.worker r
  have hmove : WorkerOk cfg ⟨.lock, (s.worker r).i, (s.worker r).tmp⟩ (s.index r) (s.count r) := by
    refine .move (hw.down hpc) (by decide) ?_ ?_ (by simp) (by simp)
    · rw [hw.index_eq, Worker.past, hpc]; rfl
    · rw [hw.count_eq, Worker.past, hpc]; rfl
  have h4 : Worker.past ⟨.lock, (s.worker r).i, (s.worker r).tmp⟩ 4 = (s.worker r).past 4 := by
    simp only [Worker.past, hpc]; rfl
  have hsem : ∀ q, Function.update s.sem r (s.sem r - 1) q +
      (Function.update s.worker r ⟨.lock, (s.worker r).i, (s.worker r).tmp⟩ q).past 1 =
      slots cfg q +
        (Function.update s.worker r ⟨.lock, (s.worker r).i, (s.worker r).tmp⟩ q.other).i := by
    intro q
    rw [apply_update_eq (f := Worker.i) (show (Worker.mk .lock (s.worker r).i _).i = _ from rfl),
      ← h.sem q]
    rcases eq_or_ne q r with rfl | hqr
    · have hold : (s.worker q).past 1 = (s.worker q).i := by rw [Worker.past, hpc]; rfl
      have hnew : (Worker.mk .lock (s.worker q).i (s.worker q).tmp).past 1 =
        (s.worker q).i + 1 := rfl
      rw [Function.update_self, Function.update_self, hold, hnew]
      omega
    · rw [Function.update_of_ne hqr, Function.update_of_ne hqr]
  have hnew := h.update hidle hmove h4 le_rfl hsem
    (h.mutex_update (by rw [hpc]; simp [Pc.Holds, Pc.position]))
  simpa only [State.setWorker, Function.update_eq_self] using hnew

/-- `mutex_lock` of the free mutex keeps the invariant: the worker is its owner then. -/
theorem Inv.lock {s : State cfg} (h : Inv s) {r : Role} (hpc : (s.worker r).pc = .lock)
    (hfree : s.mutex = none) :
    Inv ({ s with mutex := some r }.setWorker r { s.worker r with pc := .loadIndex }) := by
  obtain ⟨hidle, hi, hindex, hcount⟩ := h.own hpc (by decide)
  have hmove : WorkerOk cfg ⟨.loadIndex, (s.worker r).i, (s.worker r).tmp⟩ (s.index r)
      (s.count r) := .move hi (by decide) hindex hcount (by simp) (by simp)
  have hmutex : ∀ q, some r = some q ↔ (Function.update s.worker r
      ⟨.loadIndex, (s.worker r).i, (s.worker r).tmp⟩ q).pc.Holds := by
    refine (Function.forall_update_iff s.worker fun q w => some r = some q ↔ w.pc.Holds).mpr
      ⟨iff_of_true rfl (show Pc.Holds .loadIndex by decide), fun q hqr => ?_⟩
    rw [← h.mutex q, hfree]
    exact iff_of_false (fun hqr' => hqr (Option.some.inj hqr').symm) nofun
  have hnew := h.update hidle hmove (by simp only [Worker.past, hpc]; rfl) le_rfl
    (h.sem_update rfl (by simp only [Worker.past, hpc]; rfl)) hmutex
  simpa only [State.setWorker, Function.update_eq_self] using hnew

/-- `mutex_unlock` by the worker that holds the mutex keeps the invariant. -/
theorem Inv.unlock {s : State cfg} (h : Inv s) {r : Role} (hpc : (s.worker r).pc = .unlock) :
    Inv ({ s with mutex := none }.setWorker r { s.worker r with pc := .up }) := by
  obtain ⟨hidle, hi, hindex, hcount⟩ := h.own hpc (by decide)
  have hmove : WorkerOk cfg ⟨.up, (s.worker r).i, (s.worker r).tmp⟩ (s.index r) (s.count r) :=
    .move hi (by decide) hindex hcount (by simp) (by simp)
  have hmutex : ∀ q, none = some q ↔ (Function.update s.worker r
      ⟨.up, (s.worker r).i, (s.worker r).tmp⟩ q).pc.Holds := by
    intro q
    refine iff_of_false nofun ?_
    exact (Function.forall_update_iff s.worker fun _ w => ¬ w.pc.Holds).mpr
      ⟨show ¬ Pc.Holds .up by decide, fun q hqr => h.not_holds_of_ne (by rw [hpc]; decide) hqr⟩ q
  have hnew := h.update hidle hmove (by simp only [Worker.past, hpc]; rfl) le_rfl
    (h.sem_update rfl (by simp only [Worker.past, hpc]; rfl)) hmutex
  simpa only [State.setWorker, Function.update_eq_self] using hnew

/-- `sem_up` of the other worker's semaphore, and the next iteration, keep the invariant. -/
theorem Inv.up {s : State cfg} (h : Inv s) {r : Role} (hpc : (s.worker r).pc = .up) :
    Inv ({ s with sem := Function.update s.sem r.other (s.sem r.other + 1) }.setWorker r
      (iteration cfg ((s.worker r).i + 1))) := by
  obtain ⟨hidle, hi, hindex, hcount⟩ := h.own hpc (by decide)
  have hpast : ∀ k, 1 ≤ k → k ≤ 9 →
      (iteration cfg ((s.worker r).i + 1)).past k = (s.worker r).past k := by
    intro k h1 h9
    rw [past_iteration cfg _ h1, Worker.past, hpc, if_pos (show k ≤ Pc.up.position from h9)]
  have hmove : WorkerOk cfg (iteration cfg ((s.worker r).i + 1)) (s.index r) (s.count r) := by
    rw [show s.index r = (s.worker r).i + 1 from hindex,
      show s.count r = (s.worker r).i + 1 from hcount]
    exact workerOk_iteration hi
  have hsem : ∀ q, Function.update s.sem r.other (s.sem r.other + 1) q +
      (Function.update s.worker r (iteration cfg ((s.worker r).i + 1)) q).past 1 = slots cfg q +
      (Function.update s.worker r (iteration cfg ((s.worker r).i + 1)) q.other).i := by
    intro q
    rw [apply_update_eq (f := fun w => w.past 1) (hpast 1 le_rfl (by decide))]
    have hq := h.sem q
    cases r <;> cases q <;>
      simp only [Role.other, Function.update_self, ne_eq, reduceCtorEq, not_false_eq_true,
        Function.update_of_ne, i_iteration] at hq ⊢ <;> omega
  have hmutex : ∀ q, s.mutex = some q ↔
      (Function.update s.worker r (iteration cfg ((s.worker r).i + 1)) q).pc.Holds := by
    refine h.mutex_update (iff_of_false (not_holds_iteration cfg _) ?_)
    rw [hpc]
    decide
  have hnew := h.update hidle hmove (hpast 4 (by decide) (by decide)) le_rfl hsem hmutex
  simpa only [State.setWorker, Function.update_eq_self] using hnew

/-- Items less than `BUF_SIZE` apart have different places, so that no item is overwritten
before it is read. -/
theorem place_ne {k l : Nat} (h : k < l) (hl : l < k + cfg.bufSize) :
    place cfg k ≠ place cfg l := by
  intro heq
  have hne : (k + 0) % cfg.bufSize ≠ (k + (l - k)) % cfg.bufSize :=
    Fifo.window_index_inj (by omega) (by omega)
  rw [Nat.add_zero, Nat.add_sub_cancel' h.le] at hne
  exact hne (Fin.mk.inj heq)

/-- The access to `BUF`. The slot the producer writes was emptied before, and the slot the consumer
reads was filled before: the semaphores say so. -/
theorem Inv.access {s : State cfg} (h : Inv s) {r : Role} (hpc : (s.worker r).pc = .access) :
    Inv ((access s r).setWorker r { s.worker r with pc := .reloadIndex }) := by
  obtain ⟨hidle, hi, hindex, hcount⟩ := h.own hpc (by decide)
  have htmp : (s.worker r).tmp = (s.worker r).i := ((h.worker r).tmpIndex (.inl hpc)).trans hindex
  have hmove : WorkerOk cfg ⟨.reloadIndex, (s.worker r).i, (s.worker r).tmp⟩ (s.index r)
      (s.count r) := .move hi (by decide) hindex hcount (by simp) (by simp)
  have hworker := h.worker_update (r := r) hmove
  have hmain := h.main_update (w := ⟨.reloadIndex, (s.worker r).i, (s.worker r).tmp⟩) hidle le_rfl
  rw [Function.update_eq_self, Function.update_eq_self] at hworker
  rw [Function.update_eq_self] at hmain
  have hsem := h.sem_update (r := r) (w := ⟨.reloadIndex, (s.worker r).i, (s.worker r).tmp⟩) rfl
    (by simp only [Worker.past, hpc]; rfl)
  have hmutex := h.mutex_update (r := r) (w := ⟨.reloadIndex, (s.worker r).i, (s.worker r).tmp⟩)
    (iff_of_true (show Pc.Holds .reloadIndex by decide) (by rw [hpc]; decide))
  -- the worker is past `sem_down` but not yet past the access
  have h1 : (s.worker r).past 1 = (s.worker r).i + 1 := by rw [Worker.past, hpc]; rfl
  have h4 : (s.worker r).past 4 = (s.worker r).i := by rw [Worker.past, hpc]; rfl
  cases r with
  | producer =>
    have htaken := h.sem_empty
    have hother := (s.worker .consumer).past_le 4
    refine ⟨hworker, hsem, hmutex, h.reads, fun k hk hk' => ?_, hmain⟩
    replace hk : (s.worker .consumer).past 4 ≤ k := hk
    replace hk' : k < (s.worker .producer).i + 1 := hk'
    show Function.update s.buf (place cfg (s.worker .producer).tmp) _ (place cfg k) = k
    rw [htmp]
    rcases Nat.lt_succ_iff_lt_or_eq.mp hk' with hlt | rfl
    · rw [Function.update_of_ne (place_ne hlt (by omega))]
      exact h.buf k hk (h4.symm ▸ hlt)
    · rw [Function.update_self]
  | consumer =>
    have hother := (s.worker .producer).past_le 4
    refine ⟨hworker, hsem, hmutex, ?_, fun k hk hk' => ?_, hmain⟩
    · show s.reads ++ [s.buf (place cfg (s.worker .consumer).tmp)] =
        List.range ((s.worker .consumer).i + 1)
      have hfilled : s.buf (place cfg (s.worker .consumer).i) = (s.worker .consumer).i := by
        have htaken := h.sem_full
        exact h.buf _ h4.le (by omega)
      rw [htmp, hfilled, h.reads, h4, List.range_succ]
    · replace hk : (s.worker .consumer).i + 1 ≤ k := hk
      exact h.buf k (by omega) hk'

/-- An increment of a variable that counts items does not wrap around. -/
theorem succ_mod_eq {i : Nat} (h : i < cfg.nItems) : (i + 1) % 2 ^ 64 = i + 1 := by
  have := cfg.nItems_lt
  exact Nat.mod_eq_of_lt (by omega)

/-- **Every step of a worker keeps the invariant**, by the step it is at and the role it has. -/
theorem Inv.workerStep {s s' : State cfg} (h : Inv s) {r : Role}
    (hs : workerStep r s = some s') : Inv s' := by
  have hw := h.worker r
  unfold ProducerConsumer.workerStep at hs
  dsimp only at hs
  cases hpc : (s.worker r).pc with
  | idle | done => rw [hpc] at hs; cases hs
  | down =>
    rw [hpc] at hs
    dsimp only at hs
    split at hs
    · cases hs
    · rename_i hpos
      cases hs
      exact h.down hpc hpos
  | lock =>
    rw [hpc] at hs
    dsimp only at hs
    split at hs
    · rename_i hfree
      cases hs
      exact h.lock hpc hfree
    · cases hs
  | loadIndex =>
    rw [hpc] at hs
    cases hs
    exact h.load .access (s.index r) hpc (by decide) (by decide) (by decide) (by decide)
      (fun _ => rfl) nofun
  | access =>
    rw [hpc] at hs
    cases hs
    exact h.access hpc
  | reloadIndex =>
    rw [hpc] at hs
    cases hs
    exact h.load .storeIndex (s.index r) hpc (by decide) (by decide) (by decide) (by decide)
      (fun _ => rfl) nofun
  | storeIndex =>
    rw [hpc] at hs
    cases hs
    obtain ⟨-, hi, hindex, hcount⟩ := h.own hpc (by decide)
    have hstore : ((s.worker r).tmp + 1) % 2 ^ 64 = (s.worker r).i + 1 := by
      rw [(hw.tmpIndex (.inr hpc)).trans hindex]
      exact succ_mod_eq hi
    have hnew := h.move .loadCount (s.worker r).tmp hpc (by decide) (by decide)
      (by decide) (by decide) hstore hcount le_rfl (by simp) nofun
    simpa only [State.setWorker, Function.update_eq_self] using hnew
  | loadCount =>
    rw [hpc] at hs
    cases hs
    exact h.load .storeCount (s.count r) hpc (by decide) (by decide) (by decide) (by decide)
      (by simp) (fun _ => rfl)
  | storeCount =>
    rw [hpc] at hs
    cases hs
    obtain ⟨-, hi, hindex, hcount⟩ := h.own hpc (by decide)
    have hstore : ((s.worker r).tmp + 1) % 2 ^ 64 = (s.worker r).i + 1 := by
      rw [(hw.tmpCount hpc).trans hcount]
      exact succ_mod_eq hi
    have hnew := h.move .unlock (s.worker r).tmp hpc (by decide) (by decide) (by decide) (by decide)
      hindex hstore (by rw [hcount, hstore]; exact Nat.le_succ _) (by simp) nofun
    simpa only [State.setWorker, Function.update_eq_self] using hnew
  | unlock =>
    rw [hpc] at hs
    cases hs
    exact h.unlock hpc
  | up =>
    rw [hpc] at hs
    cases hs
    exact h.up hpc

/-! ## The steps of main -/

/-- An idle worker is spawned and begins with its first iteration. -/
theorem Inv.spawn {s : State cfg} (h : Inv s) {r : Role} {main : Main}
    (hidle : (s.worker r).pc = .idle)
    (hmain : MainOk cfg (Function.update s.worker r (iteration cfg 0)) (s.count .consumer) main) :
    Inv ({ s with main := main }.setWorker r (iteration cfg 0)) := by
  have hw := h.worker r
  have hpast : ∀ k, 1 ≤ k → (iteration cfg 0).past k = (s.worker r).past k := by
    intro k hk
    rw [past_iteration cfg 0 hk, Worker.past, hidle, hw.idle hidle,
      if_neg (show ¬ k ≤ Pc.idle.position by rw [Pc.position]; omega)]
  have hworker : WorkerOk cfg (iteration cfg 0) (s.index r) (s.count r) := by
    rw [hw.index_eq, hw.count_eq, ← hpast 6 (by decide), ← hpast 8 (by decide),
      past_iteration cfg 0 (by decide), past_iteration cfg 0 (by decide)]
    exact workerOk_iteration (Nat.zero_le _)
  have hold := h.worker_update (r := r) hworker
  rw [Function.update_eq_self, Function.update_eq_self] at hold
  have h4 := apply_update_eq (f := fun w => w.past 4) (hpast 4 (by decide))
  refine ⟨hold, h.sem_update ?_ (hpast 1 le_rfl), h.mutex_update ?_, ?_, fun k h1 h2 => ?_, hmain⟩
  · rw [i_iteration, hw.idle hidle]
  · rw [hidle]
    exact iff_of_false (not_holds_iteration cfg 0) (by decide)
  · rw [State.setWorker, h4]
    exact h.reads
  · rw [State.setWorker, h4] at h1 h2
    exact h.buf k h1 h2

/-- When all items are consumed, all have been produced: neither counter can be any larger. -/
theorem Inv.produced_eq {s : State cfg} (h : Inv s) (hall : cfg.nItems ≤ s.count .consumer) :
    s.count .producer = cfg.nItems ∧ s.count .consumer = cfg.nItems := by
  have hp := h.worker .producer
  have hc := h.worker .consumer
  have hsem := h.sem_full
  have hp8 := (s.worker .producer).past_le 8
  have hp1 := (s.worker .producer).past_antitone (show 1 ≤ 8 by decide)
  have hc1 := (s.worker .consumer).past_antitone (show 1 ≤ 8 by decide)
  have hple := hp.past_le
  have hcle := hc.past_le
  rw [hc.count_eq] at hall ⊢
  rw [hp.count_eq]
  omega

/-- **Every step of main keeps the invariant**, spawning the workers and waiting for them. -/
theorem Inv.mainStep {s s' : State cfg} (h : Inv s) (hs : mainStep s = some s') : Inv s' := by
  have hmain := h.main
  unfold ProducerConsumer.mainStep at hs
  cases hm : s.main with
  | createEmpty => rw [hm] at hmain; exact hmain.elim
  | createFull =>
    rw [hm] at hs hmain
    cases hs
    have hzero : s.sem .consumer = 0 := by
      have hsem := h.sem_full
      rw [(h.worker .producer).idle (hmain _)] at hsem
      omega
    rw [← hzero, Function.update_eq_self]
    exact ⟨h.worker, h.sem, h.mutex, h.reads, h.buf, hmain⟩
  | createMutex =>
    rw [hm] at hs hmain
    cases hs
    refine ⟨h.worker, h.sem, fun q => iff_of_false nofun ?_, h.reads, h.buf, hmain⟩
    rw [hmain q]
    decide
  | spawnProducer =>
    rw [hm] at hs hmain
    cases hs
    exact h.spawn (hmain _) (hmain .consumer)
  | spawnConsumer =>
    rw [hm] at hs hmain
    cases hs
    exact h.spawn hmain trivial
  | poll =>
    rw [hm] at hs
    cases hs
    exact ⟨h.worker, h.sem, h.mutex, h.reads, h.buf, le_rfl⟩
  | test c =>
    rw [hm] at hs hmain
    cases hs
    refine ⟨h.worker, h.sem, h.mutex, h.reads, h.buf, ?_⟩
    dsimp only
    split
    · trivial
    · rename_i hge
      exact le_trans (Nat.le_of_not_lt hge) hmain
  | loadProduced =>
    rw [hm] at hs hmain
    cases hs
    refine ⟨h.worker, h.sem, h.mutex, h.reads, h.buf, ?_⟩
    rw [if_pos (h.produced_eq hmain).1]
    exact hmain
  | loadConsumed =>
    rw [hm] at hs hmain
    cases hs
    refine ⟨h.worker, h.sem, h.mutex, h.reads, h.buf, ?_⟩
    rw [if_pos (h.produced_eq hmain).2]
    exact ⟨rfl, hmain⟩
  | returned => rw [hm] at hs; cases hs

/-! ## Whole runs -/

/-- The first step of main, the only one from the start, establishes the invariant. -/
theorem inv_of_start {t : Thread} {s' : State cfg} (hs : step t (start cfg) = some s') :
    Inv s' := by
  cases t with
  | worker r => cases hs
  | main =>
    cases hs
    refine ⟨fun r => ?_, fun r => ?_, fun r => iff_of_false nofun (show ¬ Pc.Holds .idle by decide),
      rfl, fun k _ hk => absurd hk (Nat.not_lt_zero k), fun r => rfl⟩
    · refine ⟨fun _ => rfl, nofun, nofun, Nat.zero_le _, rfl, rfl, ?_, nofun⟩
      rintro (h | h) <;> cases h
    · cases r <;> rfl

/-- The invariant holds after the first step, in every state the program can reach. -/
theorem inv_of_reachable {s : State cfg} (h : (system cfg).Reachable s) :
    s = start cfg ∨ Inv s := by
  refine h.invariant (I := fun s => s = start cfg ∨ Inv s) (fun _ h₀ => .inl h₀) ?_
  rintro s t s' (rfl | hinv) hs
  · exact .inr (inv_of_start hs)
  · cases t with
    | main => exact .inr (hinv.mainStep hs)
    | worker r => exact .inr (hinv.workerStep hs)

/-- `HEAD` and `TAIL` are at most `BUF_SIZE` apart: the items between them are in the buffer. -/
theorem Inv.head_le_tail {s : State cfg} (h : Inv s) :
    s.head ≤ s.tail ∧ s.tail - s.head ≤ cfg.bufSize := by
  have hp := (h.worker .producer).index_eq
  have hc := (h.worker .consumer).index_eq
  have hempty := h.sem_empty
  have hfull := h.sem_full
  have hp1 := (s.worker .producer).past_antitone (show 1 ≤ 6 by decide)
  have hc1 := (s.worker .consumer).past_antitone (show 1 ≤ 6 by decide)
  have hp6 := (s.worker .producer).past_le 6
  have hc6 := (s.worker .consumer).past_le 6
  rw [State.head, State.tail, hp, hc]
  omega

/-- What the consumer has read once all items are counted as consumed. -/
theorem Inv.reads_eq {s : State cfg} (h : Inv s) (hall : cfg.nItems ≤ s.count .consumer) :
    s.reads = List.range cfg.nItems := by
  have hc := h.worker .consumer
  have h48 := (s.worker .consumer).past_antitone (show 4 ≤ 8 by decide)
  have h14 := (s.worker .consumer).past_antitone (show 1 ≤ 4 by decide)
  have hle := hc.past_le
  rw [hc.count_eq] at hall
  rw [h.reads]
  exact congrArg List.range (by omega)

/-- **The bounded-buffer program is correct under every schedule.** In every state the program can
reach: when the mutex is free, `TAIL - HEAD` is between 0 and `BUF_SIZE`; the values read so far are
0, 1, 2, … in order; what is stored and not yet read is still in its place; and main can return only
0, and then all items have been read. -/
theorem reachable_correct {s : State cfg} (h : (system cfg).Reachable s) :
    (s.mutex = none → s.head ≤ s.tail ∧ s.tail - s.head ≤ cfg.bufSize) ∧
    (∀ k, (hk : k < s.reads.length) → s.reads.get ⟨k, hk⟩ = k) ∧
    (∀ k, s.reads.length ≤ k → k < s.tail → s.buf (place cfg k) = k) ∧
    (∀ code, s.main = .returned code → code = 0 ∧ s.reads = List.range cfg.nItems) := by
  rcases inv_of_reachable h with rfl | hinv
  · refine ⟨fun _ => ⟨le_rfl, Nat.zero_le _⟩, fun k hk => absurd hk (Nat.not_lt_zero k),
      fun k _ hk => absurd hk (Nat.not_lt_zero k), fun code hcode => nomatch hcode⟩
  · refine ⟨fun _ => hinv.head_le_tail, fun k hk => ?_, fun k h1 h2 => ?_, fun code hcode => ?_⟩
    · simp [hinv.reads]
    · rw [hinv.reads, List.length_range] at h1
      rw [State.tail, (hinv.worker .producer).index_eq] at h2
      exact hinv.buf k h1 (h2.trans_le ((s.worker .producer).past_antitone (by decide)))
    · have hmain := hinv.main
      rw [hcode] at hmain
      exact ⟨hmain.1, hinv.reads_eq hmain.2⟩

/-- Three items through a buffer of two slots. The consumer takes from `FULL` while the producer has
the mutex, the producer waits for a slot, the buffer wraps around, and main polls in between. -/
theorem reachable_correct_three_items :
    let cfg : Config := ⟨2, 3, by decide, by decide⟩
    ∃ s, (system cfg).Reachable s ∧ s.main = .returned 0 ∧ s.reads = [0, 1, 2] := by
  intro cfg
  let p := fun n => List.replicate n (Thread.worker .producer)
  let c := fun n => List.replicate n (Thread.worker .consumer)
  let ts :=
    List.replicate 5 Thread.main ++ p 10 ++ p 4 ++ c 1 ++ [.main] ++ p 6 ++ c 5 ++ [.main] ++
    c 4 ++ p 1 ++ c 1 ++ p 9 ++ c 9 ++ c 10 ++ List.replicate 4 .main
  have hrun : (ts.foldlM (fun s t => step t s) (start cfg)).any
      (fun s => s.main = .returned 0) = true := by
    decide +kernel
  obtain ⟨s, hs, hmain⟩ := (Option.any_eq_true _ _).mp hrun
  have hreach : (system cfg).Reachable s :=
    .of_schedule (fun _ _ _ h => h) (.of_init rfl) ts hs
  exact ⟨s, hreach, of_decide_eq_true hmain,
    ((reachable_correct hreach).2.2.2 0 (of_decide_eq_true hmain)).2⟩

end TinyOS.ProducerConsumer
