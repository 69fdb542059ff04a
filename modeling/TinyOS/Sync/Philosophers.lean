import TinyOS.Lib.Locks
import TinyOS.Lib.Transition

/-!
# Dining philosophers

`philosopher_dinner.rs` of `phase_3_sync`, with any number `n ≥ 2` of philosophers in place of the
constant 5. A fork is a lock that can be taken whenever it is free. The state starts after `main`
has created the forks; a philosopher that has not been spawned yet is one that has not moved.

The forks are taken in ascending order, which is what `Locks.Snapshot.acyclic_of_ascending` asks
for: `reachable_live` concludes that there is never a cycle of waiting philosophers and that one of
them can always move.
-/

namespace TinyOS.Philosophers

open Transition

/-- `N`, the number of philosophers and of forks, of which there are at least two. -/
structure Table where
  n : Nat
  two_le : 2 ≤ n

variable {table : Table}

/-- The philosophers, and the forks as well: fork `i` lies to the left of philosopher `i`. -/
abbrev Table.Id (table : Table) := Fin table.n

/-! ## The program -/

/-- The fork to the left of a philosopher, which has his number. -/
def left (id : table.Id) : table.Id := id

/-- The fork to the right of a philosopher, which is the next one around the table. -/
def right (id : table.Id) : table.Id :=
  ⟨(id.val + 1) % table.n, Nat.mod_lt _ (Nat.zero_lt_of_lt table.two_le)⟩

/-- The fork a philosopher takes first, the one with the lower number. -/
def first (id : table.Id) : table.Id := if left id < right id then left id else right id

/-- The fork a philosopher takes second, the one with the higher number. -/
def second (id : table.Id) : table.Id := if left id < right id then right id else left id

/-- What a philosopher does next in his loop; adding to the heartbeat is a load and a store. -/
inductive Pc where
  | think
  | lockFirst
  | lockSecond
  | eat
  | loadHeartbeat
  | storeHeartbeat
  | unlockSecond
  | unlockFirst
  deriving DecidableEq

/-- The forks with their holders, the heartbeat counters, and for every philosopher the next step
and the value loaded last. -/
structure State (table : Table) where
  forks : table.Id → Option table.Id
  heartbeat : table.Id → Nat
  pc : table.Id → Pc
  tmp : table.Id → Nat

/-- The state with a philosopher moved on to his next step. -/
def State.goto (s : State table) (id : table.Id) (pc : Pc) : State table :=
  { s with pc := Function.update s.pc id pc }

/-- `sys_mutex_lock`: the fork is with the philosopher then; `none` as long as it is taken. -/
def lock (s : State table) (id fork : table.Id) : Option (State table) :=
  if s.forks fork = none then some { s with forks := Function.update s.forks fork (some id) }
  else none

/-- `sys_mutex_unlock`: the fork is nobody's again, and the next who asks for it gets it. -/
def unlock (s : State table) (fork : table.Id) : State table :=
  { s with forks := Function.update s.forks fork none }

/-- One step of a philosopher; `none` as long as he waits for a fork. -/
def step (id : table.Id) (s : State table) : Option (State table) :=
  match s.pc id with
  | .think => some (s.goto id .lockFirst)
  | .lockFirst => (lock s id (first id)).map (·.goto id .lockSecond)
  | .lockSecond => (lock s id (second id)).map (·.goto id .eat)
  | .eat => some (s.goto id .loadHeartbeat)
  | .loadHeartbeat =>
    some ({ s with tmp := Function.update s.tmp id (s.heartbeat id) }.goto id .storeHeartbeat)
  | .storeHeartbeat =>
    some ({ s with heartbeat := Function.update s.heartbeat id ((s.tmp id + 1) % 2 ^ 64) }.goto id
      .unlockSecond)
  | .unlockSecond => some ((unlock s (second id)).goto id .unlockFirst)
  | .unlockFirst => some ((unlock s (first id)).goto id .think)

/-- The table before anybody has begun: all forks are free, and everybody thinks. -/
def start (table : Table) : State table := ⟨fun _ => none, fun _ => 0, fun _ => .think, fun _ => 0⟩

/-- The philosophers under any schedule, one of them taking a step at a time. -/
def system (table : Table) : System (State table) table.Id where
  init s := s = start table
  step s id s' := step id s = some s'

/-! ## Forks in order -/

/-- A philosopher's forks are different, since there are at least two of them. -/
theorem left_ne_right (id : table.Id) : left id ≠ right id := by
  have h := id.isLt
  have htwo := table.two_le
  intro heq
  have hval : id.val = (id.val + 1) % table.n := congrArg Fin.val heq
  rcases Nat.lt_or_ge (id.val + 1) table.n with hlt | hge
  · rw [Nat.mod_eq_of_lt hlt] at hval
    omega
  · rw [show id.val + 1 = table.n by omega, Nat.mod_self] at hval
    omega

/-- **The first fork comes before the second.** At the wrap-around this is the swap. -/
theorem first_lt_second (id : table.Id) : first id < second id := by
  unfold first second
  split
  · assumption
  · rename_i h
    exact lt_of_le_of_ne (not_lt.mp h) (left_ne_right id).symm

/-! ## The invariant -/

/-- The forks a philosopher has taken, by the step he is at. -/
def Pc.Holds (id fork : table.Id) : Pc → Prop
  | .think | .lockFirst => False
  | .lockSecond | .unlockFirst => fork = first id
  | .eat | .loadHeartbeat | .storeHeartbeat | .unlockSecond => fork = first id ∨ fork = second id

/-- Every fork is with the philosopher who has taken it. -/
def Inv (s : State table) : Prop :=
  Locks.Consistent s.forks fun id fork => (s.pc id).Holds id fork

/-- A fork another philosopher holds is not touched by a philosopher's own step. -/
theorem holds_update {pc : table.Id → Pc} {id : table.Id} {pc' : Pc} (u fork : table.Id) :
    (Function.update pc id pc' u).Holds u fork ↔
      (u = id ∧ pc'.Holds id fork) ∨ (u ≠ id ∧ (pc u).Holds u fork) := by
  rcases eq_or_ne u id with rfl | hu
  · rw [Function.update_self]
    simp
  · rw [Function.update_of_ne hu]
    simp [hu]

/-- A step that takes no fork and gives none back keeps the invariant. -/
theorem Inv.goto {s : State table} (h : Inv s) {id : table.Id} {pc : Pc}
    (hsame : ∀ fork, pc.Holds id fork ↔ (s.pc id).Holds id fork) : Inv (s.goto id pc) := by
  refine Locks.Consistent.congr h fun u fork => ?_
  refine (holds_update u fork).trans ?_
  rcases eq_or_ne u id with rfl | hu
  · simp [hsame]
  · simp [hu]

/-- `sys_mutex_lock` succeeds on a free fork, which is then with the philosopher who takes it. -/
theorem Inv.lock {s s' : State table} (h : Inv s) {id fork : table.Id} {pc : Pc}
    (hs : (Philosophers.lock s id fork).map (·.goto id pc) = some s')
    (hnew : ∀ f, pc.Holds id f ↔ f = fork ∨ (s.pc id).Holds id f) : Inv s' := by
  unfold Philosophers.lock at hs
  split at hs
  · rename_i hfree
    cases hs
    refine Locks.Consistent.acquire h hfree fun u f => ?_
    refine (holds_update u f).trans ?_
    rcases eq_or_ne u id with rfl | hu
    · simp [hnew]
    · simp [hu]
  · cases hs

/-- `sys_mutex_unlock` gives back a fork its philosopher has, and no other one. -/
theorem Inv.unlock {s : State table} (h : Inv s) {id fork : table.Id} {pc : Pc}
    (hheld : (s.pc id).Holds id fork)
    (hnew : ∀ f, pc.Holds id f ↔ (s.pc id).Holds id f ∧ f ≠ fork) :
    Inv ((Philosophers.unlock s fork).goto id pc) := by
  refine Locks.Consistent.release h fun u f => ?_
  refine (holds_update u f).trans ?_
  rcases eq_or_ne u id with rfl | hu
  · simp [hnew]
  · -- another philosopher does not hold the fork that is given back
    have hother : (s.pc u).Holds u f → f ≠ fork := by
      rintro hf rfl
      exact hu (h.unique hf hheld)
    simpa [hu, Philosophers.unlock] using hother

/-- **Every step keeps the invariant**, whichever philosopher takes it and wherever he is in his
loop. -/
theorem Inv.step {s s' : State table} (h : Inv s) {id : table.Id}
    (hs : Philosophers.step id s = some s') : Inv s' := by
  have hne := (first_lt_second id).ne
  unfold Philosophers.step at hs
  cases hpc : s.pc id with
  | think =>
    rw [hpc] at hs
    cases hs
    exact h.goto fun f => by rw [hpc]; rfl
  | lockFirst =>
    rw [hpc] at hs
    exact h.lock hs fun f => by rw [hpc]; simp [Pc.Holds]
  | lockSecond =>
    rw [hpc] at hs
    exact h.lock hs fun f => by rw [hpc]; simp [Pc.Holds, or_comm]
  | eat =>
    rw [hpc] at hs
    cases hs
    exact h.goto fun f => by rw [hpc]; rfl
  | loadHeartbeat =>
    rw [hpc] at hs
    cases hs
    exact Inv.goto (s := { s with tmp := _ }) h fun f => by
      show _ ↔ (s.pc id).Holds id f
      rw [hpc]; rfl
  | storeHeartbeat =>
    rw [hpc] at hs
    cases hs
    exact Inv.goto (s := { s with heartbeat := _ }) h fun f => by
      show _ ↔ (s.pc id).Holds id f
      rw [hpc]; rfl
  | unlockSecond =>
    rw [hpc] at hs
    cases hs
    refine h.unlock (by rw [hpc]; exact .inr rfl) fun f => ?_
    rw [hpc]
    simp only [Pc.Holds]
    constructor
    · rintro rfl
      exact ⟨.inl rfl, hne⟩
    · rintro ⟨hf | hf, hf'⟩
      · exact hf
      · exact absurd hf hf'
  | unlockFirst =>
    rw [hpc] at hs
    cases hs
    refine h.unlock (by rw [hpc]; rfl) fun f => ?_
    rw [hpc]
    simp [Pc.Holds]

/-- The invariant holds in every state the philosophers can reach. -/
theorem inv_of_reachable {s : State table} (h : (system table).Reachable s) : Inv s := by
  refine h.invariant (I := Inv) ?_ fun s id s' hinv hs => hinv.step hs
  rintro s rfl
  exact fun fork id => iff_of_false nofun fun hf => hf

/-! ## Deadlock and exclusion -/

/-- What a philosopher waits for: the fork that his next step takes. -/
def want (s : State table) (id : table.Id) : Option table.Id :=
  match s.pc id with
  | .lockFirst => some (first id)
  | .lockSecond => some (second id)
  | _ => none

/-- Who holds which fork and who waits for which, as the library of lock graphs sees it. -/
def snapshot (s : State table) : Locks.Snapshot table.Id table.Id where
  held id fork := (s.pc id).Holds id fork
  want := want s

/-- There is no cycle of waiting philosophers, as everybody takes the lower fork first. -/
theorem snapshot_acyclic (s : State table) : (snapshot s).Acyclic := by
  refine Locks.Snapshot.acyclic_of_ascending Fin.val fun id l hl l' hl' => ?_
  simp only [snapshot, want] at hl hl'
  cases hpc : s.pc id with
  | lockFirst =>
    rw [hpc] at hl'
    exact hl'.elim
  | lockSecond =>
    rw [hpc] at hl hl'
    cases hl
    cases hl'
    exact first_lt_second id
  | think | eat | loadHeartbeat | storeHeartbeat | unlockSecond | unlockFirst =>
    rw [hpc] at hl
    cases hl

/-- A philosopher whose fork is free, or who needs none, can move. -/
theorem step_isSome {s : State table} (h : Inv s) {id : table.Id}
    (hfree : ∀ l, want s id = some l → ∀ u, ¬ (s.pc u).Holds u l) : (step id s).isSome := by
  have hnone : ∀ l, want s id = some l → s.forks l = none := by
    intro l hl
    cases howner : s.forks l with
    | none => rfl
    | some u => exact absurd ((h l u).mp howner) (hfree l hl u)
  unfold step
  cases hpc : s.pc id with
  | lockFirst =>
    dsimp only
    rw [lock, if_pos (hnone _ (by rw [want, hpc]))]
    rfl
  | lockSecond =>
    dsimp only
    rw [lock, if_pos (hnone _ (by rw [want, hpc]))]
    rfl
  | think | eat | loadHeartbeat | storeHeartbeat | unlockSecond | unlockFirst => rfl

/-- The fork is one of the two a philosopher eats with. -/
def Uses (id fork : table.Id) : Prop := fork = left id ∨ fork = right id

/-- Between the second lock and the first unlock: eating, and counting the meal. -/
def Pc.Eating (pc : Pc) : Prop :=
  pc = .eat ∨ pc = .loadHeartbeat ∨ pc = .storeHeartbeat ∨ pc = .unlockSecond

/-- A philosopher who eats holds both his forks, so that no neighbour can eat at the same time. -/
theorem Uses.holds {id fork : table.Id} (h : Uses id fork) {pc : Pc} (hpc : pc.Eating) :
    pc.Holds id fork := by
  have hboth : fork = first id ∨ fork = second id := by
    unfold first second
    split
    · exact h
    · exact h.symm
  rcases hpc with rfl | rfl | rfl | rfl <;> exact hboth

/-- **The philosophers never deadlock and never share a fork.** In every state that any schedule
reaches, some philosopher can move, there is no cycle of philosophers each waiting for a fork held
by the next, and no two philosophers with a common fork are both between their second lock and their
first unlock. -/
theorem reachable_live {s : State table} (h : (system table).Reachable s) :
    (∃ id, (step id s).isSome) ∧ (snapshot s).Acyclic ∧
      ∀ i j, i ≠ j → (∃ fork, Uses i fork ∧ Uses j fork) →
        ¬ ((s.pc i).Eating ∧ (s.pc j).Eating) := by
  have hinv := inv_of_reachable h
  have hacyclic := snapshot_acyclic s
  refine ⟨?_, hacyclic, ?_⟩
  · have : Nonempty table.Id := ⟨⟨0, Nat.zero_lt_of_lt table.two_le⟩⟩
    obtain ⟨id, hid⟩ := hacyclic.exists_free
    exact ⟨id, step_isSome hinv hid⟩
  · rintro i j hij ⟨fork, hi, hj⟩ ⟨hei, hej⟩
    exact hij (hinv.unique (hi.holds hei) (hj.holds hej))

/-- Five philosophers, of whom the first three have taken their first fork: someone can move. -/
theorem reachable_live_three_forks :
    let table : Table := ⟨5, by decide⟩
    ∃ s, (system table).Reachable s ∧ s.forks 2 = some 2 ∧ ∃ id, (step id s).isSome := by
  intro table
  let ids : List table.Id := [0, 0, 1, 1, 2, 2]
  have hrun : ∃ s, ids.foldlM (fun s id => step id s) (start table) = some s ∧
      s.forks 2 = some 2 := ⟨_, rfl, rfl⟩
  obtain ⟨s, hs, hfork⟩ := hrun
  have hreach : (system table).Reachable s := .of_schedule (fun _ _ _ h => h) (.of_init rfl) ids hs
  exact ⟨s, hreach, hfork, (reachable_live hreach).1⟩

end TinyOS.Philosophers
