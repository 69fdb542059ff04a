import TinyOS.User.Programs

/-!
# The fork test

`t_fork_basic` of `usertests.rs`: the child exits with 42, and the parent finds that in what
`waitpid` has written. `run_forkBasic` says that the assertion holds whatever the other processes
do, for every exit code in the place of 42.
-/

namespace TinyOS.User

open Transition

/-- Where the test is. The number is `pid`, in the end what `waitpid` has returned. -/
inductive BasicState where
  | fork
  | child
  | waitpid (pid : Int)
  | yield (pid : Int)
  | done (r : Int)

/-- `t_fork_basic`, with `waitpid` of `user/src/lib.rs`: the child exits with `code`, and the
parent waits for it. -/
def forkBasic (code : Int32) : Program BasicState where
  call
    | .fork => some .fork
    | .child => some (.exit code)
    | .waitpid pid => some (.waitpid pid)
    | .yield _ => some .yield
    | .done _ => none
  ret
    | .fork, r => if r = 0 then .child else .waitpid r
    | .child, _ => .child
    | .waitpid pid, r => if r = -2 then .yield pid else .done r
    | .yield pid, _ => .waitpid pid
    | .done r, _ => .done r

variable {m m' : Machine BasicState} {s s' : Task.Kernel} {e : Task.Event} {p q c root : Nat}
  {tr : List Task.Event} {code : Int32} {pid : Int}

/-- The child that has been forked and not been reaped. -/
def Expected (root : Nat) (tr : List Task.Event) (m : Machine BasicState) (pid : Int) : Prop :=
  ∃ c ∈ m.kernel.children root, pid = c ∧ .fork root c ∈ tr ∧ m.control c = some ⟨.child, none⟩

/-- The child has been reaped, and its exit code is the right one. -/
def Delivered (code : Int32) (root : Nat) (tr : List Task.Event) (s : Task.Kernel) (pid : Int) :
    Prop :=
  ∃ c : Nat, pid = c ∧ .fork root c ∈ tr ∧ .waitpid root c ∈ tr ∧ s.status c = .zombie ∧
    s.exitCode c = code

/-- What holds where the parent is: it has a child to wait for, or it has got the exit code of
the one it had. -/
inductive BasicAt (code : Int32) (root : Nat) (tr : List Task.Event) (m : Machine BasicState) :
    Control BasicState → Prop where
  | fork : BasicAt code root tr m ⟨.fork, none⟩
  | forked {r : Int} (h : Expected root tr m r) : BasicAt code root tr m ⟨.fork, some r⟩
  | wait {pid : Int} (h : Expected root tr m pid) : BasicAt code root tr m ⟨.waitpid pid, none⟩
  | reaped {pid : Int} (h : Delivered code root tr m.kernel pid) :
      BasicAt code root tr m ⟨.waitpid pid, some pid⟩
  | yield {pid : Int} (h : Expected root tr m pid) : BasicAt code root tr m ⟨.yield pid, none⟩
  | done {r : Int} (h : Delivered code root tr m.kernel r) : BasicAt code root tr m ⟨.done r, none⟩

/-- The invariant of the test: where the parent is, and that every other process of it exits
with the code. -/
structure Tested (code : Int32) (root : Nat) (tr : List Task.Event) (m : Machine BasicState) :
    Prop where
  good : Good m.kernel
  parent : ∃ x, m.control root = some x ∧ BasicAt code root tr m x
  child : ∀ q x, q ≠ root → m.control q = some x → x = ⟨.child, none⟩
  codes : ∀ q, m.control q = some ⟨.child, none⟩ → m.kernel.status q = .zombie →
    m.kernel.exitCode q = code

/-- Once the exit code has been delivered, it stays with the child that was reaped. -/
theorem Delivered.step (h : Delivered code root tr s pid) (hgood : Good s)
    (hs : Task.Step s e s') : Delivered code root (tr ++ [e]) s' pid := by
  obtain ⟨c, hpid, hfork, hwait, hz, hcode⟩ := h
  obtain ⟨hz', hcode'⟩ := hs.zombie hgood.inv hz
  exact ⟨c, hpid, List.mem_append_left _ hfork, List.mem_append_left _ hwait, hz',
    hcode'.trans hcode⟩

/-- A child that is expected stays so, unless the parent reaps it or exits. -/
theorem Expected.step (h : Expected root tr m pid) (hgood : Good m.kernel)
    (hs : Task.Step m.kernel e s') (hexit : ∀ exitCode, e ≠ .exit root exitCode)
    (hwait : ∀ c, e ≠ .waitpid root c) {control : Nat → Option (Control BasicState)}
    (hcontrol : ∀ q, m.control q = some ⟨.child, none⟩ → control q = some ⟨.child, none⟩) :
    Expected root (tr ++ [e]) ⟨s', control⟩ pid := by
  obtain ⟨c, hc, hpid, hfork, hchild⟩ := h
  exact ⟨c, hgood.mem_children hs hc (.inr hexit) (hwait c), hpid, List.mem_append_left _ hfork,
    hcontrol c hchild⟩

/-- Steps that neither fork nor reap, and do not end the parent before it is done. -/
theorem BasicAt.step {x : Control BasicState} (h : BasicAt code root tr m x)
    (hgood : Good m.kernel) (hs : Task.Step m.kernel e s')
    (hparent : (forkBasic code).Runs (some x) → ∀ exitCode, e ≠ .exit root exitCode)
    (hwait : (forkBasic code).Runs (some x) → ∀ c, e ≠ .waitpid root c) :
    BasicAt code root (tr ++ [e]) ⟨s', m.control⟩ x := by
  have hstep : ∀ {pid : Int}, (forkBasic code).Runs (some x) → Expected root tr m pid →
      Expected root (tr ++ [e]) ⟨s', m.control⟩ pid := fun hruns h =>
    h.step hgood hs (hparent hruns) (hwait hruns) fun _ hq => hq
  cases h with
  | fork => exact .fork
  | forked h => exact .forked (hstep ⟨_, rfl, by simp [forkBasic]⟩ h)
  | wait h => exact .wait (hstep ⟨_, rfl, by simp [forkBasic]⟩ h)
  | reaped h => exact .reaped (h.step hgood hs)
  | yield h => exact .yield (hstep ⟨_, rfl, by simp [forkBasic]⟩ h)
  | done h => exact .done (h.step hgood hs)

/-! ## Steps -/

/-- A child that exits does so with the exit code of the test. -/
theorem Tested.codes_step (h : Tested code root tr m) (hs : Task.Step m.kernel e s')
    (hexit : ∀ exitCode, e = .exit q exitCode → exitCode = code)
    (hq : m.control q = some ⟨.child, none⟩) (hz : s'.status q = .zombie) :
    s'.exitCode q = code := by
  rcases hs.exits.2 hz with hz | ⟨exitCode, rfl⟩
  · exact (hs.zombie h.good.inv hz).2.trans (h.codes q hq hz)
  · exact (hs.exits.1 exitCode rfl).2.trans (hexit exitCode rfl)

/-- Only the parent makes calls other than `exit`, as the child is at its `exit` from the start. -/
theorem Tested.eq_root (h : Tested code root tr m) {st : BasicState} {result : Option Int}
    (hp : m.control p = some ⟨st, result⟩) (hst : st ≠ .child) : p = root := by
  by_contra hne
  cases h.child p _ hne hp
  exact hst rfl

/-- What holds where the parent is, for the state it is known to be in. -/
theorem Tested.at_root (h : Tested code root tr m) {x : Control BasicState}
    (hx : m.control root = some x) : BasicAt code root tr m x := by
  obtain ⟨_, hx', hat⟩ := h.parent
  cases hx.symm.trans hx'
  exact hat

/-- The parent is never where the child is: `fork` returns a pid to it, which is not zero. -/
theorem BasicAt.not_child {x : Control BasicState} (h : BasicAt code root tr m x) :
    x.state ≠ .child := by
  cases h <;> nofun

/-- A child that waits to be reaped is not the parent. -/
theorem Tested.ne_root (h : Tested code root tr m) (hq : m.control q = some ⟨.child, none⟩) :
    q ≠ root := by
  rintro rfl
  exact (h.at_root hq).not_child rfl

/-- Nobody of the test does anything but call or yield, or a child exits. -/
theorem Tested.stay (h : Tested code root tr m) (hs : Task.Step m.kernel e s')
    (hparent : (forkBasic code).Runs (m.control root) → ∀ exitCode, e ≠ .exit root exitCode)
    (hwait : (forkBasic code).Runs (m.control root) → ∀ c, e ≠ .waitpid root c)
    (hexit : ∀ q exitCode, m.control q = some ⟨.child, none⟩ → e = .exit q exitCode →
      exitCode = code) : Tested code root (tr ++ [e]) ⟨s', m.control⟩ := by
  obtain ⟨x, hx, hat⟩ := h.parent
  rw [hx] at hparent hwait
  exact ⟨h.good.step hs, ⟨x, hx, hat.step h.good hs hparent hwait⟩, h.child,
    fun q hq hz => h.codes_step hs (fun exitCode => hexit q exitCode hq) hq hz⟩

/-- The parent goes on, and the child stays where it is. -/
theorem Tested.update (h : Tested code root tr m) (hs : Task.Step m.kernel e s')
    {x : Control BasicState}
    (hat : BasicAt code root (tr ++ [e]) ⟨s', Function.update m.control root (some x)⟩ x)
    (hexit : ∀ q exitCode, e ≠ .exit q exitCode) :
    Tested code root (tr ++ [e]) ⟨s', Function.update m.control root (some x)⟩ := by
  refine ⟨h.good.step hs, ⟨x, Function.update_self .., hat⟩, fun q y hq hy => ?_,
    fun q hq hz => ?_⟩
  · dsimp only at hy
    rw [Function.update_of_ne hq] at hy
    exact h.child q y hq hy
  · by_cases hqr : q = root
    · subst hqr
      dsimp only at hq
      rw [Function.update_self] at hq
      cases hq
      exact absurd rfl hat.not_child
    · dsimp only at hq
      rw [Function.update_of_ne hqr] at hq
      exact h.codes_step hs (fun exitCode heq => absurd heq (hexit q exitCode)) hq hz

/-- The parent's child is still expected, whatever the parent does but reap it. -/
theorem Expected.update (h : Expected root tr m pid) (ht : Tested code root tr m)
    (hs : Task.Step m.kernel e s') (hexit : ∀ exitCode, e ≠ .exit root exitCode)
    (hwait : ∀ c, e ≠ .waitpid root c) (x : Control BasicState) :
    Expected root (tr ++ [e]) ⟨s', Function.update m.control root (some x)⟩ pid := by
  refine h.step ht.good hs hexit hwait fun q hq => ?_
  rw [Function.update_of_ne (ht.ne_root hq)]
  exact hq

/-- The child has a pid, which is neither 0 nor -2. -/
theorem Expected.pos (h : Expected root tr m pid) (hgood : Good m.kernel) : 0 < pid := by
  obtain ⟨c, hc, rfl, -⟩ := h
  exact Int.natCast_pos.mpr (hgood.pid_child hc).2

/-- Whom `waitpid` looks for is the child, as no two processes have the same pid. -/
theorem Expected.matching_iff (h : Expected root tr m pid) (hgood : Good m.kernel) :
    c ∈ matching m.kernel root pid ↔ c ∈ m.kernel.children root ∧ pid = c := by
  have hpos := h.pos hgood
  rw [matching, List.mem_filter, decide_eq_true_eq]
  refine and_congr_right fun hc => ?_
  rw [(hgood.pid_child hc).1]
  omega

/-- `fork` returns in the parent and in the child: the one has a child to wait for, the other is
at its `exit`. -/
theorem Tested.fork (h : Tested code root tr m) {st : BasicState}
    (hp : m.control p = some ⟨st, none⟩) (hcall : (forkBasic code).call st = some .fork)
    (hs : Task.Step m.kernel (.fork p c) s') :
    Tested code root (tr ++ [.fork p c]) ⟨s', Function.update
      (Function.update m.control p (some ⟨st, some (s'.pid c).toNat⟩))
      c (some ⟨(forkBasic code).ret st 0, none⟩)⟩ := by
  cases st with
  | child | waitpid | yield | done => cases hcall
  | fork =>
    obtain rfl := h.eq_root hp nofun
    obtain ⟨hnext, hlt, hmem⟩ := h.good.fork hs
    have hgood := h.good.step hs
    have hpid := (hgood.pid_child hmem).1
    have hpc : p ≠ c := by omega
    refine ⟨hgood, ⟨⟨.fork, some c⟩, ?_, .forked ⟨c, hmem, rfl, ?_, Function.update_self ..⟩⟩,
      fun q x hq hx => ?_, fun q hq hz => ?_⟩
    · dsimp only
      rw [Function.update_of_ne hpc, Function.update_self, hpid]
    · exact List.mem_append_right _ (List.mem_singleton_self _)
    · dsimp only at hx
      by_cases hqc : q = c
      · rw [hqc, Function.update_self] at hx
        exact (Option.some.inj hx).symm
      · rw [Function.update_of_ne hqc, Function.update_of_ne hq] at hx
        exact h.child q x hq hx
    · dsimp only at hq
      by_cases hqc : q = c
      · -- a new process has not exited
        subst hqc
        rcases hs.exits.2 hz with hz | ⟨exitCode, heq⟩
        · have halive := (h.good.inv.scheduled.zombie q hz).1
          exact absurd (h.good.inv.pids.lt q halive) (by omega)
        · cases heq
      · rw [Function.update_of_ne hqc] at hq
        have hqp : q ≠ p := by
          rintro rfl
          rw [Function.update_self] at hq
          cases hq
        rw [Function.update_of_ne hqp] at hq
        exact h.codes_step hs (fun exitCode heq => by cases heq) hq hz

/-- `waitpid` finds the child, which has exited, and returns its pid. -/
theorem Tested.waitpid (h : Tested code root tr m) {st : BasicState}
    (hp : m.control p = some ⟨st, none⟩) (hcall : (forkBasic code).call st = some (.waitpid pid))
    (hc : c ∈ matching m.kernel p pid) (hs : Task.Step m.kernel (.waitpid p c) s') :
    Tested code root (tr ++ [.waitpid p c]) ⟨s', Function.update m.control p
      (some ⟨st, some (m.kernel.pid c).toNat⟩)⟩ := by
  cases st with
  | fork | child | yield | done => cases hcall
  | waitpid pid' =>
    cases hcall
    obtain rfl := h.eq_root hp nofun
    cases h.at_root hp with
    | wait hw =>
      obtain ⟨hmem, hpid⟩ := (hw.matching_iff h.good).mp hc
      obtain ⟨c', -, hpid', hfork, hchild⟩ := hw
      obtain rfl : c' = c := Int.ofNat_inj.mp (hpid'.symm.trans hpid)
      have hz : m.kernel.status c' = .zombie := by
        cases hs with
        | waitpid _ _ hz => exact hz
      obtain ⟨hz', hcode⟩ := hs.zombie h.good.inv hz
      rw [(h.good.pid_child hmem).1, ← hpid]
      refine h.update hs (.reaped ⟨c', hpid, List.mem_append_left _ hfork, ?_, hz', ?_⟩) (by simp)
      · exact List.mem_append_right _ (List.mem_singleton_self _)
      · exact hcode.trans (h.codes c' hchild hz)

/-- A syscall of the parent returns, and the program goes on with its result. -/
theorem Tested.leave (h : Tested code root tr m) {st : BasicState} {result : Option Int}
    {call : Call} {r : Int} (hp : m.control p = some ⟨st, result⟩)
    (hcall : (forkBasic code).call st = some call) (hret : Returns m.kernel p call result r)
    (hs : Task.Step m.kernel (.leave p) s') :
    Tested code root (tr ++ [.leave p]) ⟨s', Function.update m.control p
      (some ⟨(forkBasic code).ret st r, none⟩)⟩ := by
  have hst : st ≠ .child := by
    rintro rfl
    cases hcall
    by_cases hpr : p = root
    · subst hpr
      exact (h.at_root hp).not_child rfl
    · cases h.child p _ hpr hp
      cases hret
  obtain rfl := h.eq_root hp hst
  have hstep : ∀ {pid : Int} (x : Control BasicState), Expected p tr m pid →
      Expected p (tr ++ [.leave p]) ⟨s', Function.update m.control p (some x)⟩ pid :=
    fun x hw => hw.update h hs (by simp) (by simp) x
  refine h.update hs ?_ (by simp)
  cases h.at_root hp with
  | fork =>
    cases hcall
    cases hret
  | forked hw =>
    cases hret
    have hpos := hw.pos h.good
    rw [show (forkBasic code).ret .fork r = .waitpid r from if_neg (by omega)]
    exact .wait (hstep _ hw)
  | @wait pid hw =>
    cases hcall
    cases hret with
    | noChild hnone =>
      have hmatch := fun {c} => hw.matching_iff (c := c) h.good
      obtain ⟨c, hc, hpid, -⟩ := hw
      have hmem := hmatch.mpr ⟨hc, hpid⟩
      rw [hnone] at hmem
      cases hmem
    | again => exact .yield (hstep _ hw)
  | @reaped pid hd =>
    cases hret
    have hdone := hd.step h.good hs
    obtain ⟨c, hpid, -⟩ := hd
    rw [show (forkBasic code).ret (.waitpid r) r = .done r from if_neg (by omega)]
    exact .done hdone
  | @yield pid hw =>
    cases hcall
    cases hret
    exact .wait (hstep _ hw)
  | done => cases hcall

end TinyOS.User
