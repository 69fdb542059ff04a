import TinyOS.User.Programs

/-!
# forktree.rs

`spawn` of `forktree.rs` forks once: the parent returns from it, and the child calls it again with a
smaller depth and exits. So `spawn(DEPTH)` leads to a chain of processes, in which each one has
forked the next, and to no tree (`run_forktree`). `main` waits for its one child; the others do not
wait for theirs, which initproc adopts.
-/

namespace TinyOS.User

open Transition

/-- Where the program is. `top` tells `main` from the children, and `fork top depth` is in
`spawn(depth + 1)`. -/
inductive TreeState where
  | fork (top : Bool) (depth : Nat)
  | wait
  | yield
  | exit

/-- `DEPTH`, the depth `main` calls `spawn` with; the results are about every depth. -/
def treeDepth : Nat := 4

/-- What follows the call of `spawn`: the loop in `main`, `exit(0)` in a child. -/
def afterSpawn (top : Bool) : TreeState := if top then .wait else .exit

/-- Where a process is at the call of `spawn(depth)`: at a `fork`, or behind the call if the
depth is zero. -/
def spawn (top : Bool) : Nat → TreeState
  | 0 => afterSpawn top
  | depth + 1 => .fork top depth

/-- `forktree.rs`, with `wait` of `user/src/lib.rs`; only `main` goes on to the loop of waits. -/
def forktree : Program TreeState where
  call
    | .fork _ _ => some .fork
    | .wait => some (.waitpid (-1))
    | .yield => some .yield
    | .exit => some (.exit 0)
  ret
    | .fork top depth, r => if r = 0 then spawn false depth else afterSpawn top
    | .wait, r => if r = -2 then .yield else if 0 < r then .wait else .exit
    | .yield, _ => .wait
    | .exit, _ => .exit

/-- The program beside all other processes: a process `root` of a running system calls
`spawn(depth)` in `main`. -/
def treeSystem (depth root : Nat) : System (Machine TreeState) Task.Event :=
  machine forktree (Begins root (spawn true depth))

variable {m m' : Machine TreeState} {s s' : Task.Kernel} {e : Task.Event} {p q c depth root : Nat}
  {tr : List Task.Event} {l : List Nat}

/-! ## One process -/

/-- A process that has returned from `fork`, or is about to. -/
inductive Past (top : Bool) : Control TreeState → Prop where
  | forked {depth : Nat} {r : Int} (hr : 0 < r) : Past top ⟨.fork top depth, some r⟩
  | exit : Past top ⟨.exit, none⟩
  | wait (htop : top = true) : Past top ⟨.wait, none⟩
  | reaped {r : Int} (htop : top = true) (hr : 0 < r) : Past top ⟨.wait, some r⟩
  | yield (htop : top = true) : Past top ⟨.yield, none⟩

/-- Behind its call of `spawn` a process has forked, or had nothing to fork. -/
theorem past_afterSpawn (top : Bool) : Past top ⟨afterSpawn top, none⟩ := by
  cases top with
  | false => exact .exit
  | true => exact .wait rfl

/-- A syscall returns. If the program is at its end then, it had no child. -/
theorem Past.leave {top : Bool} {st : TreeState} {result : Option Int} {call : Call} {r : Int}
    (h : Past top ⟨st, result⟩) (hcall : forktree.call st = some call)
    (hret : Returns s p call result r) :
    Past top ⟨forktree.ret st r, none⟩ ∧
      (top = true → forktree.ret st r = .exit → s.children p = []) := by
  cases h with
  | @forked depth _ hr =>
    cases hret
    rw [show forktree.ret (.fork top depth) r = afterSpawn top from if_neg (by omega)]
    refine ⟨past_afterSpawn top, ?_⟩
    rintro rfl heq
    cases heq
  | exit =>
    cases hcall
    cases hret
  | wait htop =>
    cases hcall
    cases hret with
    | noChild hnone => exact ⟨.exit, fun _ _ => matching_any s p ▸ hnone⟩
    | again => exact ⟨.yield htop, nofun⟩
  | reaped htop hr =>
    cases hret
    rw [show forktree.ret .wait r = .wait from (if_neg (by omega)).trans (if_pos hr)]
    exact ⟨.wait htop, nofun⟩
  | yield htop =>
    cases hcall
    cases hret
    exact ⟨.wait htop, nofun⟩

/-- Only `main` waits, so that a child never reaps: it exits behind its call of `spawn`. -/
theorem Past.waitpid {top : Bool} {st : TreeState} {pid r : Int} (h : Past top ⟨st, none⟩)
    (hcall : forktree.call st = some (.waitpid pid)) (hr : 0 < r) :
    top = true ∧ Past top ⟨st, some r⟩ := by
  cases h with
  | exit | yield => cases hcall
  | wait htop => exact ⟨htop, .reaped htop hr⟩

/-- A process that has returned from `fork` does not fork again. -/
theorem Past.not_fork {top : Bool} {st : TreeState} (h : Past top ⟨st, none⟩) :
    forktree.call st ≠ some .fork := by
  cases h <;> nofun

/-! ## The chain -/

/-- The processes that run the program, the newest first. All but the newest have forked, and the
newest has `depth` less one for each of the others to go. -/
structure Line (depth root : Nat) (control : Nat → Option (Control TreeState)) (p : Nat)
    (rest : List Nat) : Prop where
  mem : ∀ q, control q = none ↔ q ∉ p :: rest
  nodup : (p :: rest).Nodup
  oldest : (p :: rest).getLast? = some root
  newest : (rest.length < depth ∧
      control p = some ⟨.fork (p == root) (depth - rest.length - 1), none⟩) ∨
    (rest.length = depth ∧ ∃ x, control p = some x ∧ Past (p == root) x)
  past : ∀ q ∈ rest, ∃ x, control q = some x ∧ Past (q == root) x

section

variable {control : Nat → Option (Control TreeState)} {rest : List Nat} {x x' : Control TreeState}
  {st : TreeState}

/-- A process that runs the program is in the chain. -/
theorem Line.mem_of_control (h : Line depth root control p rest) (hq : control q = some x) :
    q ∈ p :: rest := by
  by_contra hnot
  rw [(h.mem q).mpr hnot] at hq
  cases hq

/-- The process the chain has begun with is in it. -/
theorem Line.root_mem (h : Line depth root control p rest) : root ∈ p :: rest :=
  List.mem_of_getLast? h.oldest

/-- Where a process is: before its `fork`, or behind it. -/
theorem Line.cases (h : Line depth root control p rest) (hq : control q = some x) :
    (q = p ∧ rest.length < depth ∧ x = ⟨.fork (p == root) (depth - rest.length - 1), none⟩) ∨
      Past (q == root) x := by
  rcases List.mem_cons.mp (h.mem_of_control hq) with rfl | hmem
  · rcases h.newest with ⟨hlt, hp⟩ | ⟨-, y, hy, hpast⟩
    · cases hq.symm.trans hp
      exact .inl ⟨rfl, hlt, rfl⟩
    · cases hq.symm.trans hy
      exact .inr hpast
  · obtain ⟨y, hy, hpast⟩ := h.past q hmem
    cases hq.symm.trans hy
    exact .inr hpast

/-- A process that has forked goes on, and the chain stays as it is. -/
theorem Line.update (h : Line depth root control p rest) (hq : control q = some x)
    (hpast : Past (q == root) x) (hpast' : Past (q == root) x') :
    Line depth root (Function.update control q (some x')) p rest := by
  have hother : ∀ q', (∃ y, control q' = some y ∧ Past (q' == root) y) →
      ∃ y, Function.update control q (some x') q' = some y ∧ Past (q' == root) y := by
    intro q' hq'
    by_cases heq : q' = q
    · exact ⟨x', by rw [heq, Function.update_self], heq ▸ hpast'⟩
    · rw [Function.update_of_ne heq]
      exact hq'
  refine ⟨fun q' => ?_, h.nodup, h.oldest, ?_, fun q' hq' => hother q' (h.past q' hq')⟩
  · rw [← h.mem q', Function.update_apply]
    split
    · rename_i heq
      rw [heq, hq]
      simp
    · rfl
  · refine h.newest.imp (fun hnew => ⟨hnew.1, ?_⟩) fun hnew => ⟨hnew.1, hother p hnew.2⟩
    rw [Function.update_of_ne, hnew.2]
    rintro rfl
    cases hq.symm.trans hnew.2
    cases hpast

/-- The newest process forks, and the child is the newest one then, with one less to go. -/
theorem Line.fork (h : Line depth root control p rest) (hq : control q = some ⟨st, none⟩)
    (hcall : forktree.call st = some .fork) (hc : c ∉ p :: rest) {r : Int} (hr : 0 < r) :
    q = p ∧ Line depth root (Function.update (Function.update control q (some ⟨st, some r⟩))
      c (some ⟨forktree.ret st 0, none⟩)) c (p :: rest) := by
  rcases h.cases hq with ⟨rfl, hlt, heq⟩ | hpast
  swap
  · exact absurd hcall hpast.not_fork
  cases heq
  have hcroot : c ≠ root := fun heq => hc (heq ▸ h.root_mem)
  have hne : ∀ q' ∈ q :: rest, q' ≠ c := fun q' hq' heq => hc (heq ▸ hq')
  have hnotin : q ∉ rest := (List.nodup_cons.mp h.nodup).1
  refine ⟨rfl, fun q' => ?_, List.nodup_cons.mpr ⟨hc, h.nodup⟩, ?_, ?_, fun q' hq' => ?_⟩
  · rw [List.mem_cons, not_or, ← h.mem q', Function.update_apply, Function.update_apply]
    split
    · rename_i heq
      simp [heq]
    · rename_i hne
      split
      · rename_i heq
        simp [heq, hq]
      · simp [hne]
  · rw [List.getLast?_cons_cons]
    exact h.oldest
  · rw [Function.update_self, beq_false_of_ne hcroot, List.length_cons]
    have hret : ∀ top d, forktree.ret (.fork top d) 0 = spawn false d := fun _ _ => rfl
    rw [hret]
    rcases Nat.lt_or_ge (rest.length + 1) depth with hlt' | hge
    · obtain ⟨d, hd⟩ : ∃ d, depth - rest.length - 1 = d + 1 :=
        ⟨depth - rest.length - 2, by omega⟩
      refine .inl ⟨hlt', ?_⟩
      rw [hd, show depth - (rest.length + 1) - 1 = d by omega]
      rfl
    · refine .inr ⟨by omega, _, rfl, ?_⟩
      rw [show depth - rest.length - 1 = 0 by omega]
      exact past_afterSpawn false
  · rw [Function.update_of_ne (hne q' hq')]
    rcases List.mem_cons.mp hq' with rfl | hq'
    · exact ⟨_, Function.update_self .., .forked hr⟩
    · have hqq : q' ≠ q := fun heq => hnotin (heq ▸ hq')
      rw [Function.update_of_ne hqq]
      exact h.past q' hq'

end

/-! ## The history -/

/-- A process acts when it has a number: whoever makes a step has been forked before. -/
theorem Good.actor_lt (h : Good s) (hs : Task.Step s e s') (hq : actor e = some q) :
    q < s.next := by
  cases hs with
  | runTasks | drop => cases hq
  | enter _ hcur | leave hcur | yield hcur | fork hcur | exit _ hcur | schedule hcur =>
    cases hq
    exact h.inv.pids.lt _ (h.inv.mem_of_current hcur)
  | waitpid _ hc _ =>
    cases hq
    exact h.inv.pids.lt _ (h.inv.family.mem _ _ hc).1

/-- Control blocks are added but their numbers never used again. -/
theorem next_le (hs : Task.Step s e s') : s.next ≤ s'.next := by
  cases hs with
  | runTasks | enter | leave | waitpid | drop => exact Nat.le_refl _
  | fork => exact Nat.le_succ _
  | yield => rw [Task.Kernel.sysYield_eq]
  | schedule _ _ hq => rw [Task.Kernel.schedule_eq hq]
  | exit =>
    rw [Task.Kernel.sysExit, Task.Kernel.reparentToInit]
    split <;> exact Nat.le_refl _

/-- What the processes `l` of the chain have done: whom they have forked and reaped, and when
they exit. -/
structure Logged (root : Nat) (control : Nat → Option (Control TreeState)) (s : Task.Kernel)
    (tr : List Task.Event) (l : List Nat) : Prop where
  actors : ∀ e ∈ tr, ∀ q, actor e = some q → q < s.next
  lt : ∀ q ∈ l, q < s.next
  /-- Each one has forked the next, and nobody else. -/
  linked : l.IsChain fun c p => .fork p c ∈ tr
  forks : ∀ q ∈ l, ∀ c, .fork q c ∈ tr → [c, q] <:+: l
  waits : ∀ q ∈ l, q ≠ root → ∀ c, .waitpid q c ∉ tr
  exits : ∀ q ∈ l, ∀ exitCode, .exit q exitCode ∈ tr → control q = some ⟨.exit, none⟩
  /-- `main` waits until it has no child any more. -/
  children : ∀ c, .fork root c ∈ tr →
    .waitpid root c ∈ tr ∨ c ∈ s.children root ∧ control root ≠ some ⟨.exit, none⟩

section

variable {control control' : Nat → Option (Control TreeState)}

/-- Everybody who has done anything by now is a process that has been made. -/
theorem Logged.actors_step (h : Logged root control s tr l) (hgood : Good s)
    (hs : Task.Step s e s') : ∀ e' ∈ tr ++ [e], ∀ q, actor e' = some q → q < s'.next := by
  intro e' he' q hq
  refine Nat.lt_of_lt_of_le ?_ (next_le hs)
  rcases List.mem_append.mp he' with he' | he'
  · exact h.actors e' he' q hq
  · cases List.mem_singleton.mp he'
    exact hgood.actor_lt hs hq

/-- Nobody of `l` forks: what they have done stays as it is, with one more event. -/
theorem Logged.step (h : Logged root control s tr l) (hgood : Good s) (hs : Task.Step s e s')
    (hroot : root ∈ l) (hfork : ∀ q ∈ l, ∀ c, e ≠ .fork q c)
    (hwait : ∀ q ∈ l, q ≠ root → ∀ c, e ≠ .waitpid q c)
    (hexit : ∀ q ∈ l, ∀ exitCode, e = .exit q exitCode → control q = some ⟨.exit, none⟩)
    (hkeep : ∀ q, control q = some ⟨.exit, none⟩ → control' q = some ⟨.exit, none⟩)
    (hend : control' root = some ⟨.exit, none⟩ →
      control root = some ⟨.exit, none⟩ ∨ s.children root = []) :
    Logged root control' s' (tr ++ [e]) l := by
  have hmem : ∀ {e'}, e' ∈ tr ++ [e] → e' ∈ tr ∨ e = e' := fun he' =>
    (List.mem_append.mp he').imp id fun he' => (List.mem_singleton.mp he').symm
  refine ⟨h.actors_step hgood hs, fun q hq => Nat.lt_of_lt_of_le (h.lt q hq) (next_le hs),
    h.linked.imp fun c p hfork => List.mem_append_left _ hfork, fun q hq c hc => ?_,
    fun q hq hne c hc => ?_, fun q hq exitCode hc => ?_, fun c hc => ?_⟩
  · exact h.forks q hq c ((hmem hc).resolve_right (hfork q hq c))
  · rcases hmem hc with hc | rfl
    · exact h.waits q hq hne c hc
    · exact hwait q hq hne c rfl
  · rcases hmem hc with hc | rfl
    · exact hkeep q (h.exits q hq exitCode hc)
    · exact hkeep q (hexit q hq exitCode rfl)
  · rcases h.children c ((hmem hc).resolve_right (hfork root hroot c)) with hc | ⟨hc, hrun⟩
    · exact .inl (List.mem_append_left _ hc)
    by_cases hwaited : e = .waitpid root c
    · exact .inl (hwaited ▸ List.mem_append_right _ (List.mem_singleton_self _))
    refine .inr ⟨hgood.mem_children hs hc (.inr fun exitCode heq => ?_) hwaited, fun hexit' => ?_⟩
    · exact hrun (hexit root hroot exitCode heq)
    · rcases hend hexit' with hexit' | hnone
      · exact hrun hexit'
      · rw [hnone] at hc
        cases hc

/-- The newest process forks, and what the longer chain has done is right again. -/
theorem Logged.fork {rest : List Nat} (h : Logged root control s tr (p :: rest)) (hgood : Good s)
    (hs : Task.Step s (.fork p c) s') (hroot : root ∈ p :: rest)
    (hp : control p ≠ some ⟨.exit, none⟩) (hp' : control' p ≠ some ⟨.exit, none⟩)
    (hother : ∀ q ∈ rest, control' q = control q) :
    Logged root control' s' (tr ++ [.fork p c]) (c :: p :: rest) := by
  obtain ⟨rfl, -, hchild⟩ := hgood.fork hs
  have hnew : ∀ e ∈ tr, actor e ≠ some s.next := fun e he hq =>
    absurd (h.actors e he _ hq) (Nat.lt_irrefl _)
  have hmem : ∀ {e'}, e' ∈ tr ++ [Task.Event.fork p s.next] → e' ∈ tr ∨ .fork p s.next = e' :=
    fun he' => (List.mem_append.mp he').imp id fun he' => (List.mem_singleton.mp he').symm
  have hlt : s.next < s'.next := by
    cases hs
    exact Nat.lt_succ_self _
  refine ⟨h.actors_step hgood hs, fun q hq => ?_, ?_, fun q hq c hc => ?_,
    fun q hq hne c hc => ?_, fun q hq exitCode hc => ?_, fun c hc => ?_⟩
  · rcases List.mem_cons.mp hq with rfl | hq
    · exact hlt
    · exact Nat.lt_trans (h.lt q hq) hlt
  · refine List.isChain_cons_cons.mpr ⟨List.mem_append_right _ (List.mem_singleton_self _), ?_⟩
    exact h.linked.imp fun c p hfork => List.mem_append_left _ hfork
  · rcases hmem hc with hc | heq
    · rcases List.mem_cons.mp hq with rfl | hq
      · exact absurd rfl (hnew _ hc)
      · exact (h.forks q hq c hc).trans (List.suffix_cons _ _).isInfix
    · cases heq
      exact ⟨[], rest, rfl⟩
  · rcases hmem hc with hc | heq
    · rcases List.mem_cons.mp hq with rfl | hq
      · exact hnew _ hc rfl
      · exact h.waits q hq hne c hc
    · cases heq
  · rcases hmem hc with hold | heq
    · rcases List.mem_cons.mp hq with rfl | hq
      · exact absurd rfl (hnew _ hold)
      · rcases List.mem_cons.mp hq with rfl | hq'
        · exact absurd (h.exits q hq exitCode hold) hp
        · rw [hother q hq']
          exact h.exits q hq exitCode hold
    · cases heq
  · have hrun : control root ≠ some ⟨.exit, none⟩ → control' root ≠ some ⟨.exit, none⟩ := by
      intro hrun
      rcases List.mem_cons.mp hroot with rfl | hroot
      · exact hp'
      · rw [hother root hroot]
        exact hrun
    rcases hmem hc with hc | heq
    · rcases h.children c hc with hc | ⟨hc, hrun'⟩
      · exact .inl (List.mem_append_left _ hc)
      · exact .inr ⟨hgood.mem_children hs hc (.inr (by simp)) (by simp), hrun hrun'⟩
    · cases heq
      exact .inr ⟨hchild, hp'⟩

end

/-! ## Whole runs -/

/-- The invariant: the processes of the program form a chain. -/
structure Chain (depth root : Nat) (tr : List Task.Event) (m : Machine TreeState) (p : Nat)
    (rest : List Nat) : Prop where
  good : Good m.kernel
  line : Line depth root m.control p rest
  log : Logged root m.control m.kernel tr (p :: rest)

/-- A process of the program is at a syscall wherever it is: the program never calls `exec`. -/
theorem forktree_runs (x : Control TreeState) : forktree.Runs (some x) := by
  obtain ⟨st, result⟩ := x
  refine ⟨_, rfl, ?_⟩
  cases st <;> nofun

/-- Nobody of the chain does anything but call or yield. -/
theorem Chain.stay {rest : List Nat} (h : Chain depth root tr m p rest)
    (hs : Task.Step m.kernel e s') (hfork : ∀ q ∈ p :: rest, ∀ c, e ≠ .fork q c)
    (hwait : ∀ q ∈ p :: rest, ∀ c, e ≠ .waitpid q c)
    (hexit : ∀ q ∈ p :: rest, ∀ exitCode, e = .exit q exitCode →
      m.control q = some ⟨.exit, none⟩) :
    Chain depth root (tr ++ [e]) ⟨s', m.control⟩ p rest where
  good := h.good.step hs
  line := h.line
  log := h.log.step h.good hs h.line.root_mem hfork (fun q hq _ => hwait q hq) hexit
    (fun _ hq => hq) .inl

/-- One that has forked goes on, and what the chain has done stays right. -/
theorem Chain.update {rest : List Nat} (h : Chain depth root tr m p rest)
    {x x' : Control TreeState} (hs : Task.Step m.kernel e s') (hq : m.control q = some x)
    (hrun : x ≠ ⟨.exit, none⟩) (hpast : Past (q == root) x) (hpast' : Past (q == root) x')
    (hfork : ∀ q c, e ≠ .fork q c) (hexit : ∀ q exitCode, e ≠ .exit q exitCode)
    (hwait : ∀ q' c, e = .waitpid q' c → q' = root)
    (hend : q = root → x' = ⟨.exit, none⟩ → m.kernel.children root = []) :
    Chain depth root (tr ++ [e]) ⟨s', Function.update m.control q (some x')⟩ p rest where
  good := h.good.step hs
  line := h.line.update hq hpast hpast'
  log := by
    refine h.log.step h.good hs h.line.root_mem (fun q _ => hfork q)
      (fun q' _ hne c heq => hne (hwait q' c heq))
      (fun q _ exitCode heq => absurd heq (hexit q exitCode)) (fun q' hq' => ?_) fun hroot => ?_
    · dsimp only
      rw [Function.update_of_ne, hq']
      rintro rfl
      cases hq.symm.trans hq'
      exact hrun rfl
    · dsimp only at hroot
      by_cases heq : root = q
      · rw [heq, Function.update_self] at hroot
        exact .inr (hend heq.symm (Option.some.inj hroot))
      · rw [Function.update_of_ne heq] at hroot
        exact .inl hroot

/-- **A step keeps the chain**, or makes it longer by the child of its newest process. -/
theorem Step.chain {rest : List Nat} (h : Chain depth root tr m p rest)
    (hs : Step forktree m e m') : ∃ p' rest', Chain depth root (tr ++ [e]) m' p' rest' := by
  cases hs with
  | other hs hfree =>
    have hactor : ∀ q ∈ p :: rest, actor e ≠ some q := by
      intro q hq heq
      obtain ⟨x, hx⟩ := Option.ne_none_iff_exists'.mp fun hnone => (h.line.mem q).mp hnone hq
      exact hfree q heq (hx ▸ forktree_runs x)
    refine ⟨p, rest, h.stay hs (fun q hq c heq => ?_) (fun q hq c heq => ?_)
      fun q hq exitCode heq => ?_⟩
    all_goals exact absurd (congrArg actor heq) (hactor q hq)
  | enter _ _ hs | yield _ _ _ hs | schedule _ _ hs =>
    exact ⟨p, rest, h.stay hs (by simp) (by simp) (by simp)⟩
  | @exit q st _ _ hq hcall hs =>
    refine ⟨p, rest, h.stay hs (by simp) (by simp) fun q' _ _ heq => ?_⟩
    cases heq
    rw [hq]
    cases st with
    | exit => rfl
    | fork | wait | yield => cases hcall
  | @fork q c st s' hq hcall hs =>
    obtain ⟨hnext, -, hchild⟩ := h.good.fork hs
    have hfresh : c ∉ p :: rest := fun hmem => absurd (h.log.lt c hmem) (by omega)
    obtain ⟨hpid, hpos⟩ := (h.good.step hs).pid_child hchild
    have hr : 0 < ((s'.pid c).toNat : Int) := by omega
    have hne : ∀ q' ∈ p :: rest, q' ≠ c := fun q' hq' heq => hfresh (heq ▸ hq')
    obtain ⟨rfl, hline⟩ := h.line.fork hq hcall hfresh hr
    refine ⟨c, q :: rest, h.good.step hs, hline, h.log.fork h.good hs h.line.root_mem ?_ ?_ ?_⟩
    · rw [hq]
      rintro heq
      cases heq
      cases hcall
    · dsimp only
      rw [Function.update_of_ne (hne q List.mem_cons_self), Function.update_self]
      nofun
    · intro q' hq'
      have hqq : q' ≠ q := fun heq => (List.nodup_cons.mp h.line.nodup).1 (heq ▸ hq')
      dsimp only
      rw [Function.update_of_ne (hne q' (List.mem_cons_of_mem _ hq')), Function.update_of_ne hqq]
  | @waitpid q c st pid _ hq hcall _ hc hs =>
    obtain ⟨hpid, hpos⟩ := h.good.pid_child (List.mem_filter.mp hc).1
    rcases h.line.cases hq with ⟨-, -, heq⟩ | hpast
    · cases heq
      cases hcall
    obtain ⟨htop, hpast'⟩ := hpast.waitpid hcall (Int.natCast_pos.mpr (hpid ▸ hpos))
    refine ⟨p, rest, h.update hs hq ?_ hpast hpast' (by simp) (by simp) ?_ nofun⟩
    · rintro heq
      cases heq
      cases hcall
    · rintro q' c' heq
      cases heq
      exact beq_iff_eq.mp htop
  | @leave q st result call r _ hq hcall hret hs =>
    rcases h.line.cases hq with ⟨-, -, heq⟩ | hpast
    · cases heq
      cases hcall
      cases hret
    obtain ⟨hpast', hnone⟩ := hpast.leave hcall hret
    refine ⟨p, rest, h.update hs hq ?_ hpast hpast' (by simp) (by simp) (by simp) ?_⟩
    · rintro heq
      cases heq
      cases hcall
      cases hret
    · rintro rfl heq
      exact hnone (beq_self_eq_true q) (congrArg Control.state heq)

/-- The chain at the start has one process, which has done nothing yet. -/
theorem chain_init (h : Begins root (spawn true depth) m) : Chain depth root [] m root [] := by
  have hgood := h.good
  obtain ⟨-, hlt, -, hcontrol⟩ := h
  have hroot : m.control root = some ⟨spawn true depth, none⟩ := by
    rw [hcontrol, Function.update_self]
  refine ⟨hgood, ⟨fun q => ?_, List.nodup_singleton _, rfl, ?_, nofun⟩,
    ⟨nofun, ?_, .singleton _, nofun, nofun, nofun, nofun⟩⟩
  · rw [hcontrol, Function.update_apply, List.mem_singleton]
    split <;> simp [*]
  · rw [hroot, beq_self_eq_true]
    cases depth with
    | zero => exact .inr ⟨rfl, _, rfl, past_afterSpawn true⟩
    | succ depth => exact .inl ⟨Nat.succ_pos _, rfl⟩
  · simpa using hlt

/-- After every run the processes of the program are a chain, and have done what they should. -/
theorem chain_of_run {m₀ : Machine TreeState} (h₀ : (treeSystem depth root).init m₀)
    (hrun : (treeSystem depth root).Run m₀ tr m) : ∃ p rest, Chain depth root tr m p rest := by
  refine hrun.history (I := fun tr m => ∃ p rest, Chain depth root tr m p rest)
    ⟨root, [], chain_init h₀⟩ ?_
  rintro tr m e m' ⟨p, rest, h⟩ hs
  exact Step.chain h hs

/-- **forktree makes a chain.** Whatever the other processes do, the processes that run the program
are a list of at most `depth + 1`, the newest first. Each one forks the next and no other process,
and only `main` waits. When all of them have exited there are `depth + 1`, and when `main` has
exited it has reaped its child. -/
theorem run_forktree {m₀ : Machine TreeState} (h₀ : (treeSystem depth root).init m₀)
    (hrun : (treeSystem depth root).Run m₀ tr m) :
    ∃ l : List Nat, (∀ p, m.control p ≠ none ↔ p ∈ l) ∧ l.Nodup ∧ l.getLast? = some root ∧
      l.length ≤ depth + 1 ∧
      l.IsChain (fun c p => .fork p c ∈ tr) ∧ (∀ p ∈ l, ∀ c, .fork p c ∈ tr → [c, p] <:+: l) ∧
      (∀ p ∈ l, p ≠ root → ∀ c, .waitpid p c ∉ tr) ∧
      ((∀ p ∈ l, ∃ exitCode, .exit p exitCode ∈ tr) → l.length = depth + 1) ∧
      ((∃ exitCode, .exit root exitCode ∈ tr) → ∀ c, .fork root c ∈ tr → .waitpid root c ∈ tr) := by
  obtain ⟨p, rest, h⟩ := chain_of_run h₀ hrun
  refine ⟨p :: rest, fun q => ?_, h.line.nodup, h.line.oldest, ?_, h.log.linked, h.log.forks,
    h.log.waits, fun hall => ?_, ?_⟩
  · rw [Ne, h.line.mem q, not_not]
  · rw [List.length_cons]
    rcases h.line.newest with ⟨hlt, -⟩ | ⟨heq, -⟩ <;> omega
  · rw [List.length_cons]
    rcases h.line.newest with ⟨-, hp⟩ | ⟨heq, -⟩
    · -- the newest process has not forked yet
      obtain ⟨exitCode, hexit⟩ := hall p List.mem_cons_self
      cases hp.symm.trans (h.log.exits p List.mem_cons_self exitCode hexit)
    · omega
  · rintro ⟨exitCode, hexit⟩ c hc
    rcases h.log.children c hc with hwait | ⟨-, hrun⟩
    · exact hwait
    · exact absurd (h.log.exits root h.line.root_mem exitCode hexit) hrun

/-- The first child of initproc runs `main` and has forked once. -/
theorem run_forktree_once : ∃ m₀ m c, (treeSystem treeDepth 1).init m₀ ∧
    (treeSystem treeDepth 1).Run m₀ [.enter 1 .sysFork, .fork 1 c] m ∧
      ∃ l : List Nat, [c, 1] <:+: l ∧ l.length ≤ 5 := by
  have h₁ := (System.Run.nil (S := Task.processes) (Task.boot (some 0))).snoc (.runTasks rfl rfl)
  have h₂ := h₁.snoc (.enter .sysFork rfl rfl nofun)
  have h₃ := h₂.snoc (.fork rfl rfl (.pidAlloc (by decide)))
  have h₄ := h₃.snoc (.leave rfl rfl nofun)
  have h₅ := h₄.snoc (.yield rfl (by decide) (by decide))
  have h₆ := h₅.snoc (.runTasks rfl rfl)
  obtain ⟨s, hrun, hcur, hstack, hnext, _, halloc⟩ :
      ∃ s, Task.processes.Run (Task.boot (some 0)) _ s ∧ s.current = some 1 ∧ s.stack 1 = [] ∧
        1 < s.next ∧ ∃ handles, s.handles.Step (.pidAlloc 2) handles :=
    ⟨_, h₆, rfl, rfl, Nat.one_lt_two, _, .pidAlloc (by decide)⟩
  let m₀ : Machine TreeState :=
    ⟨s, Function.update (fun _ => none) 1 (some ⟨spawn true treeDepth, none⟩)⟩
  have h₀ : (treeSystem treeDepth 1).init m₀ := ⟨⟨_, hrun⟩, hnext, hstack, rfl⟩
  have hcontrol : m₀.control 1 = some ⟨spawn true treeDepth, none⟩ := by
    simp only [m₀, Function.update_self]
  have hrun₁ := (System.Run.nil (S := treeSystem treeDepth 1) m₀).snoc
    (.enter hcontrol rfl (.enter .sysFork hcur hstack nofun))
  have hrun₂ := hrun₁.snoc
    (.fork (p := 1) hcontrol rfl (.fork hcur rfl halloc))
  obtain ⟨l, hmem, -, -, hlen, -, hforks, -⟩ := run_forktree h₀ hrun₂
  have hroot : 1 ∈ l := by
    refine (hmem 1).mp ?_
    dsimp only
    rw [Function.update_of_ne hnext.ne, Function.update_self]
    nofun
  exact ⟨m₀, _, _, h₀, hrun₂, l, hforks 1 hroot _ (by simp), hlen⟩

end TinyOS.User
