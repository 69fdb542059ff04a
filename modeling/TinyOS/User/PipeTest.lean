import TinyOS.User.PipeProgram

/-!
# Runs of the pipe programs

In every interleaving of a program of `TinyOS.User.PipeProgram` with any other processes the reader
gets the beginning of the message that fits into its buffer, the parent waits until its child has
exited, and the two programs come to an end (`run_message`): none of them waits for the other for
ever, unless the writer has more to write than the buffer and the ring take, or waits with its write
end open for a reader that wants more than the message. What they do besides the polls of `wait` is
bounded by the bytes and calls of the program.
-/

namespace TinyOS.PipeTest

open Transition Pipes

variable {prog : Program} {s s' : State} {κ κ' : Kernel} {c c' : Config} {e : Event} {a : Label}
  {tr tr' : List Label} {p q d k rd wr w r : Nat} {l l' lw lr lp lc : List Call}

/-! ## Parent and child -/

/-- Who is in a children list after a call: who was there, who has just been forked, or an
orphan of the caller. -/
theorem mem_adopt {children : Nat → List Nat} (h : d ∈ adopt children e q) :
    d ∈ children q ∨ e = .fork q d ∨ q = 0 ∧ ∃ p, e = .exit p ∧ d ∈ children p := by
  cases e with
  | fork p c =>
    simp only [adopt] at h
    by_cases hqp : q = p
    · subst hqp
      rw [Function.update_self, List.mem_append, List.mem_singleton] at h
      rcases h with h | rfl
      · exact .inl h
      · exact .inr (.inl rfl)
    · rw [Function.update_of_ne hqp] at h
      by_cases hqc : q = c
      · rw [hqc, Function.update_self] at h
        cases h
      · rw [Function.update_of_ne hqc] at h
        exact .inl h
  | exit p =>
    simp only [adopt] at h
    by_cases hq0 : q = 0
    · subst hq0
      rw [Function.update_self, List.mem_append] at h
      rcases h with h | h
      · by_cases hp : 0 = p
        · rw [hp, Function.update_self] at h
          cases h
        · rw [Function.update_of_ne hp] at h
          exact .inl h
      · exact .inr (.inr ⟨rfl, p, rfl, h⟩)
    · rw [Function.update_of_ne hq0] at h
      by_cases hqp : q = p
      · rw [hqp, Function.update_self] at h
        cases h
      · rw [Function.update_of_ne hqp] at h
        exact .inl h
  | pipe | dup | close | read | write | get | put | readDone | eof | writeDone => exact .inl h

/-- Other processes leave the children of a process alone, unless it is the first one. -/
theorem adopt_of_ne {children : Nat → List Nat} (hinit : q ≠ 0) (hne : proc e ≠ q)
    (hchild : ∀ p, e ≠ .fork p q) : adopt children e q = children q := by
  cases e with
  | fork p c =>
    have hqc : q ≠ c := by
      rintro rfl
      exact hchild p rfl
    exact (Function.update_of_ne (Ne.symm hne) ..).trans (Function.update_of_ne hqc ..)
  | exit p => exact (Function.update_of_ne hinit ..).trans (Function.update_of_ne (Ne.symm hne) ..)
  | pipe | dup | close | read | write | get | put | readDone | eof | writeDone => rfl

/-- The same for every step of the kernel, as `sys_waitpid` takes children out but puts none in. -/
theorem KernelStep.mem_children (hs : KernelStep κ a κ') (h : d ∈ κ'.children q) :
    d ∈ κ.children q ∨ a = .call (.fork q d) ∨
      q = 0 ∧ ∃ p, a = .call (.exit p) ∧ d ∈ κ.children p := by
  cases hs with
  | call hs =>
    rcases mem_adopt h with hold | rfl | ⟨hq, p, rfl, hold⟩
    · exact .inl hold
    · exact .inr (.inl rfl)
    · exact .inr (.inr ⟨hq, p, rfl, hold⟩)
  | @reap p c =>
    left
    by_cases hqp : q = p
    · subst hqp
      simp only [Function.update_self] at h
      exact List.mem_of_mem_erase h
    · simp only [Function.update_of_ne hqp] at h
      exact h
  | again | noChild => exact .inl h

/-- A step of another process leaves the children of a process, unless this is the first one. -/
theorem KernelStep.children_eq (hs : KernelStep κ a κ') (hinit : q ≠ 0) (hq : q < κ.pipes.procs)
    (hne : a.proc ≠ q) : κ'.children q = κ.children q := by
  cases hs with
  | call hs =>
    refine adopt_of_ne hinit hne ?_
    rintro p rfl
    cases hs
    exact lt_irrefl _ hq
  | reap => exact Function.update_of_ne (Ne.symm hne) ..
  | again | noChild => rfl

/-- Processes are added but never taken away, so that their numbers stay below the next one. -/
theorem KernelStep.procs_le (hs : KernelStep κ a κ') : κ.pipes.procs ≤ κ'.pipes.procs := by
  cases hs with
  | call hs => exact hs.procs_le
  | reap | again | noChild => exact le_rfl

/-- A new process has a new number, the next one. -/
theorem KernelStep.fork_eq (hs : KernelStep κ (.call (.fork q d)) κ') :
    d = κ.pipes.procs ∧ d < κ'.pipes.procs := by
  cases hs with
  | call hs =>
    cases hs
    exact ⟨rfl, Nat.lt_succ_self _⟩

/-- Everybody's children have been forked: their numbers are those of processes there are. -/
def Forebears (κ : Kernel) : Prop := ∀ q d, d ∈ κ.children q → d < κ.pipes.procs

/-- A step of the kernel makes nobody a child but the process it forks. -/
theorem KernelStep.forebears (h : Forebears κ) (hs : KernelStep κ a κ') : Forebears κ' := by
  intro q d hd
  rcases hs.mem_children hd with hold | rfl | ⟨-, p, -, hold⟩
  · exact (h q d hold).trans_le hs.procs_le
  · exact hs.fork_eq.2
  · exact (h p d hold).trans_le hs.procs_le

/-- The child is its parent's only child until it is reaped, after it has exited. -/
structure Kin (κ : Kernel) (p d : Nat) (lp lc : List Call) : Prop where
  notInit : p ≠ 0
  waiting : .wait ∈ lp → κ.children p = [d]
  reaped : .wait ∉ lp → κ.children p = [] ∧ lc = []
  only : ∀ q, d ∈ κ.children q → q = p

/-- A step of another process changes nothing between the parent and the child. -/
theorem Kin.other (h : Kin κ p d lp lc) (hs : KernelStep κ a κ') (hp : p < κ.pipes.procs)
    (hd : d < κ.pipes.procs) (hne : a.proc ≠ p) : Kin κ' p d lp lc := by
  have hsame := hs.children_eq h.notInit hp hne
  refine ⟨h.notInit, fun hw => hsame.trans (h.waiting hw), fun hw => ?_, fun q hq => ?_⟩
  · exact ⟨hsame.trans (h.reaped hw).1, (h.reaped hw).2⟩
  · rcases hs.mem_children hq with hold | rfl | ⟨-, p', rfl, hold⟩
    · exact h.only q hold
    · exact absurd hs.fork_eq.1 hd.ne
    · exact absurd (h.only p' hold) hne

/-- A call of the program other than `wait` leaves it as it is. -/
theorem Advance.mem_wait (h : Advance q l e l') : .wait ∈ l' ↔ .wait ∈ l := by
  cases h <;> simp

/-- The child goes on, and is its parent's only child as before. -/
theorem Kin.child_step (h : Kin κ p d lp lc) (hs : KernelStep κ a κ') (hp : p < κ.pipes.procs)
    (hd : d < κ.pipes.procs) (hne : d ≠ p) (hgo : Goes d lc a l) (hproc : a.proc = d) :
    Kin κ' p d lp l := by
  obtain ⟨hinit, hwaiting, hreaped, honly⟩ := h.other hs hp hd (hproc ▸ hne)
  refine ⟨hinit, hwaiting, fun hw => ?_, honly⟩
  obtain ⟨hnil, rfl⟩ := hreaped hw
  cases hgo with
  | call hadv => cases hadv

/-- The parent makes a call other than `wait`. If it exits, it has no children left. -/
theorem Kin.parent_call (h : Kin κ p d lp lc) (hadv : Advance p lp e l)
    (hlast : e = .exit p → .wait ∉ lp) : Kin ⟨s', adopt κ.children e⟩ p d l lc := by
  have hfork : ∀ q x, e ≠ .fork q x := by
    cases hadv <;> simp
  have hsame : adopt κ.children e p = κ.children p := by
    by_cases hexit : e = .exit p
    · subst hexit
      obtain ⟨hnil, -⟩ := h.reaped (hlast rfl)
      simp only [adopt, Function.update_of_ne h.notInit, Function.update_self]
      exact hnil.symm
    · cases hadv with
      | exit => exact absurd rfl hexit
      | close | read | get | readDone | eof | write | put | writeDone => rfl
  refine ⟨h.notInit, fun hw => ?_, fun hw => ?_, fun q hq => ?_⟩
  · exact hsame.trans (h.waiting (hadv.mem_wait.mp hw))
  · obtain ⟨hnil, hc⟩ := h.reaped fun hmem => hw (hadv.mem_wait.mpr hmem)
    exact ⟨hsame.trans hnil, hc⟩
  · rcases mem_adopt hq with hold | rfl | ⟨-, p', rfl, hold⟩
    · exact h.only q hold
    · exact absurd rfl (hfork q d)
    · obtain rfl := h.only p' hold
      cases hadv with
      | exit =>
        rw [(h.reaped (hlast rfl)).1] at hold
        cases hold

/-- The parent's `wait` finds its child, after it has exited. -/
theorem Kin.reap (h : Kin κ p d (.wait :: lp) lc) (hnot : .wait ∉ lp) {x : Nat}
    (hx : x ∈ κ.children p) (hdone : x = d → lc = []) :
    Kin { κ with children := Function.update κ.children p ((κ.children p).erase x) } p d lp lc := by
  have honly : κ.children p = [d] := h.waiting (List.mem_cons_self ..)
  rw [honly, List.mem_singleton] at hx
  subst hx
  have hnil : (κ.children p).erase x = [] := by rw [honly]; exact List.erase_cons_head ..
  refine ⟨h.notInit, fun hw => absurd hw hnot, fun _ => ⟨?_, hdone rfl⟩, fun q hq => ?_⟩
  · exact (Function.update_self ..).trans hnil
  · by_cases hqp : q = p
    · exact hqp
    · simp only [Function.update_of_ne hqp] at hq
      exact h.only q hq

/-- A process goes on by steps of its own, not by those of the other one. -/
theorem Goes.proc (h : Goes q l a l') : a.proc = q := by
  cases h with
  | call hadv => exact hadv.proc.1
  | reap | again | noChild => rfl

/-- The parent goes on. It waits once, before it exits, and a child that has exited is through. -/
theorem Kin.parent_step (h : Kin κ p d lp lc) (hs : KernelStep κ a κ') (hgo : Goes p lp a l)
    (hlast : ∀ call l', lp = call :: l' → call = .wait ∨ call = .exit → .wait ∉ l')
    (hdone : κ.pipes.activity d = .exited → lc = []) : Kin κ' p d l lc := by
  cases hgo with
  | @call _ _ e hadv =>
    cases hs with
    | call hs =>
      refine h.parent_call hadv fun hexit => ?_
      cases hadv with
      | exit =>
        rw [List.mem_cons, not_or]
        exact ⟨nofun, hlast _ _ rfl (.inr rfl)⟩
      | close | read | get | readDone | eof | write | put | writeDone => cases hexit
  | reap =>
    cases hs with
    | reap _ _ hc hz =>
      exact h.reap (hlast _ _ rfl (.inl rfl)) hc fun hx => hdone (hx ▸ hz)
  | again =>
    cases hs
    exact h
  | noChild =>
    cases hs with
    | noChild _ _ hnone =>
      rw [h.waiting (List.mem_cons_self ..)] at hnone
      cases hnone

/-- `wait` comes at most once, and only `exit` after it. -/
theorem Writer.last {out : List UInt8} (h : Writer prog s w k rd wr out lw) (call : Call)
    (l' : List Call) (heq : lw = call :: l') (hcall : call = .wait ∨ call = .exit) :
    .wait ∉ l' := by
  cases h with
  | closeRead | write | writing | closeWrite =>
    cases heq
    rcases hcall with hcall | hcall <;> cases hcall
  | wait | exit =>
    cases heq
    simp
  | done => cases heq

/-- The last `wait` of the reader comes before nothing but its `exit`. -/
theorem Reader.last {inp : List UInt8} (h : Reader prog s r k rd wr inp lr) (call : Call)
    (l' : List Call) (heq : lr = call :: l') (hcall : call = .wait ∨ call = .exit) :
    .wait ∉ l' := by
  cases h with
  | closeWrite | read | reading =>
    cases heq
    rcases hcall with hcall | hcall <;> cases hcall
  | wait | exit =>
    cases heq
    simp
  | done => cases heq

/-- A writer that has exited is through with all its calls. -/
theorem Writer.eq_nil {out : List UInt8} (h : Writer prog s w k rd wr out lw)
    (hexited : s.activity w = .exited) : lw = [] := by
  cases h with
  | closeRead _ ha | write _ ha | writing _ ha | closeWrite _ ha | wait _ ha | exit _ ha =>
    rw [ha] at hexited
    cases hexited
  | done => rfl

/-- A reader that has exited is through with all its calls. -/
theorem Reader.eq_nil {inp : List UInt8} (h : Reader prog s r k rd wr inp lr)
    (hexited : s.activity r = .exited) : lr = [] := by
  cases h with
  | closeWrite _ ha | read _ ha | reading _ ha | wait _ ha | exit _ ha =>
    rw [ha] at hexited
    cases hexited
  | done => rfl

/-! ## The invariant -/

/-- Only the process that made the pipe has its ends, and they are unused. -/
structure Piped (es : List Event) (κ : Kernel) (p k rd wr : Nat) : Prop where
  lt : p < κ.pipes.procs
  user : κ.pipes.activity p = .user
  ends : Ends κ.pipes p k (some rd) (some wr)
  only : Only κ.pipes k (· = p)
  unused : written k es = [] ∧ received k es = []
  notInit : p ≠ 0
  childless : κ.children p = []

/-- Only the two processes of the program have the ends, each does its part, and the parent waits
for its child. -/
structure Forked (prog : Program) (es : List Event) (κ : Kernel) (w r k rd wr : Nat)
    (lw lr : List Call) : Prop where
  ne : w ≠ r
  writer_lt : w < κ.pipes.procs
  reader_lt : r < κ.pipes.procs
  only : Only κ.pipes k fun q => q = w ∨ q = r
  writer : Writer prog κ.pipes w k rd wr (written k es) lw
  reader : Reader prog κ.pipes r k rd wr (received k es) lr
  kin : Kin κ (prog.parent w r) (prog.child w r) (prog.parent lw lr) (prog.child lw lr)

/-- What holds after the calls `es`, by the phase of the program. -/
def Inv (prog : Program) (es : List Event) (c : Config) : Prop :=
  match c.phase with
  | .start => True
  | .piped p k rd wr => Piped es c.kernel p k rd wr
  | .forked w r k rd wr lw lr => Forked prog es c.kernel w r k rd wr lw lr

variable {es : List Event}

/-- The program starts: a new pipe is unused and has two ends. -/
theorem piped_pipe (h : Conveys es κ.pipes) (hinit : p ≠ 0) (hchildren : κ.children p = [])
    (hs : KernelStep κ (.call (.pipe p κ.pipes.pipes)) κ') :
    Piped (es ++ [.pipe p κ.pipes.pipes]) κ' p κ.pipes.pipes
      ((κ.pipes.fdTable p).install (.readEnd κ.pipes.pipes)).1
      (((κ.pipes.fdTable p).install (.readEnd κ.pipes.pipes)).2.install
        (.writeEnd κ.pipes.pipes)).1 := by
  obtain ⟨s, children⟩ := κ
  dsimp only at h hchildren hs ⊢
  have hmade := h.made
  have hnobody : ∀ q f, f = .readEnd s.pipes ∨ f = .writeEnd s.pipes → ¬ Refers s q f := by
    rintro q f (rfl | rfl) href
    · exact lt_irrefl _ (hmade q _ (.inl href))
    · exact lt_irrefl _ (hmade q _ (.inr href))
  have hunused := h.unmade s.pipes le_rfl
  cases hs with
  | call hs =>
  cases hs with
  | pipe hp huser =>
    have hend : ∀ q f, f = .readEnd s.pipes ∨ f = .writeEnd s.pipes → q ≠ p →
        ¬ Refers (s.sysPipe p) q f := by
      rintro q f hf hne ⟨hq, href⟩
      simp only [State.sysPipe, State.setTable, Function.update_of_ne hne] at href
      exact hnobody q f hf ⟨hq, href⟩
    refine ⟨hp, huser, ends_pipe (fun fd => ?_) (Function.update_self ..),
      ⟨Nat.lt_succ_self _, fun q => hend q _ (.inl rfl), fun q => hend q _ (.inr rfl)⟩, ?_, hinit,
      hchildren⟩
    · exact ⟨fun hf => hnobody p _ (.inl rfl) ⟨hp, .inl (mem_of_file? hf)⟩,
        fun hf => hnobody p _ (.inr rfl) ⟨hp, .inl (mem_of_file? hf)⟩⟩
    · rw [written_append, received_append, hunused.1, hunused.2]
      exact ⟨rfl, rfl⟩

/-- The only child after `fork`, as the process that made the pipe had none before. -/
theorem Piped.kin (h : Piped es κ p k rd wr) (hold : Forebears κ)
    (hs : KernelStep κ (.call (.fork p κ.pipes.procs)) κ') (hp : .wait ∈ lp) :
    Kin κ' p κ.pipes.procs lp lc := by
  cases hs with
  | call _ =>
    refine ⟨h.notInit, fun _ => ?_, fun hw => absurd hp hw, fun q hq => ?_⟩
    · simp only [adopt, Function.update_self, h.childless]
      rfl
    · have hq : κ.pipes.procs ∈ adopt κ.children (.fork p κ.pipes.procs) q := hq
      rcases mem_adopt hq with hmem | heq | ⟨-, p', heq, -⟩
      · exact absurd (hold q _ hmem) (lt_irrefl _)
      · cases heq
        rfl
      · cases heq

/-- The program forks: both processes have both ends, and the parent has the other one as its
only child. -/
theorem forked_fork (prog : Program) (h : Piped es κ p k rd wr) (hold : Forebears κ)
    (hs : KernelStep κ (.call (.fork p κ.pipes.procs)) κ') :
    if prog.childReads then
      Forked prog (es ++ [.fork p κ.pipes.procs]) κ' p κ.pipes.procs k rd wr (prog.writer rd wr)
        (prog.reader rd wr)
    else Forked prog (es ++ [.fork p κ.pipes.procs]) κ' κ.pipes.procs p k rd wr (prog.writer rd wr)
        (prog.reader rd wr) := by
  have hkin : ∀ {lp lc}, .wait ∈ lp → Kin κ' p κ.pipes.procs lp lc := fun hp => h.kin hold hs hp
  obtain ⟨s, children⟩ := κ
  obtain ⟨hlt, huser, hends, honly, hunused, -, -⟩ := h
  dsimp only at hlt huser hends honly hs hkin ⊢
  cases hs with
  | @call s' _ hs =>
  have honly : Only s' k fun q => q = p ∨ q = s.procs := by
    refine honly.step hs (fun q => .inl) fun p' q heq _ => ?_
    cases heq
    exact .inr rfl
  have hunused : written k (es ++ [.fork p s.procs]) = [] ∧
      received k (es ++ [.fork p s.procs]) = [] := by
    rw [written_append, received_append, hunused.1, hunused.2]
    exact ⟨rfl, rfl⟩
  cases hs with
  | fork hp huser =>
    have hne : p ≠ s.procs := hp.ne
    have hparent : Ends (s.sysFork p) p k (some rd) (some wr) :=
      hends.congr (Function.update_of_ne hne ..)
    have hchild : Ends (s.sysFork p) s.procs k (some rd) (some wr) := by
      have htable : (s.sysFork p).fdTable s.procs = s.fdTable p := Function.update_self ..
      constructor
      · rw [htable]
        exact hends.read
      · rw [htable]
        exact hends.write
    have hact : (s.sysFork p).activity p = .user := (Function.update_of_ne hne ..).trans huser
    have hact' : (s.sysFork p).activity s.procs = .user := Function.update_self ..
    have hlt : p < (s.sysFork p).procs := Nat.lt_succ_of_lt hp
    have hlt' : s.procs < (s.sysFork p).procs := Nat.lt_succ_self _
    split
    · rename_i hc
      refine ⟨hne, hlt, hlt', honly, .closeRead hparent hact hunused.1,
        .closeWrite hchild hact' hunused.2, ?_⟩
      simp only [Program.parent, Program.child, hc, if_true]
      exact hkin (by simp [Program.writer, Program.last, Program.leave, hc]; split <;> simp)
    · rename_i hc
      refine ⟨hne.symm, hlt', hlt, ?_, .closeRead hchild hact' hunused.1,
        .closeWrite hparent hact hunused.2, ?_⟩
      · simpa only [or_comm] using honly
      · simp only [Program.parent, Program.child, hc]
        exact hkin (by simp [Program.reader, Program.leave, hc])

/-- What has been read is the beginning of the message. -/
theorem Forked.isPrefix (h : Forked prog es κ w r k rd wr lw lr) (hconv : Conveys es κ.pipes) :
    received k es <+: prog.message := by
  obtain ⟨q, -, heq⟩ := hconv.ring k
  exact List.IsPrefix.trans ⟨q, heq.symm⟩ h.writer.isPrefix

/-- The parent waits for its child, whichever of the two goes on. -/
theorem Forked.kin_writer (h : Forked prog es κ w r k rd wr lw lr) (hs : KernelStep κ a κ')
    (hgo : Goes w lw a l) :
    Kin κ' (prog.parent w r) (prog.child w r) (prog.parent l lr) (prog.child l lr) := by
  have hkin := h.kin
  by_cases hc : prog.childReads = true
  · simp only [Program.parent, Program.child, hc, if_true] at hkin ⊢
    exact hkin.parent_step hs hgo h.writer.last h.reader.eq_nil
  · simp only [Program.parent, Program.child, hc] at hkin ⊢
    exact hkin.child_step hs h.reader_lt h.writer_lt h.ne hgo hgo.proc

/-- What is between the parent and the child stays right if the reader goes on. -/
theorem Forked.kin_reader (h : Forked prog es κ w r k rd wr lw lr) (hs : KernelStep κ a κ')
    (hgo : Goes r lr a l) :
    Kin κ' (prog.parent w r) (prog.child w r) (prog.parent lw l) (prog.child lw l) := by
  have hkin := h.kin
  by_cases hc : prog.childReads = true
  · simp only [Program.parent, Program.child, hc, if_true] at hkin ⊢
    exact hkin.child_step hs h.writer_lt h.reader_lt h.ne.symm hgo hgo.proc
  · simp only [Program.parent, Program.child, hc] at hkin ⊢
    exact hkin.parent_step hs hgo h.reader.last h.writer.eq_nil

/-- A step of the writer keeps the invariant: the reader and all others stay where they are. -/
theorem Forked.writer_step (h : Forked prog es κ w r k rd wr lw lr) (hs : KernelStep κ a κ')
    (hgo : Goes w lw a l) : Forked prog (es ++ calls [a]) κ' w r k rd wr l lr := by
  have hkin := h.kin_writer hs hgo
  have hwait : ∀ {l' κ'}, lw = .wait :: l' → κ'.pipes = κ.pipes →
      Kin κ' (prog.parent w r) (prog.child w r) (prog.parent l' lr) (prog.child l' lr) →
      Forked prog (es ++ []) κ' w r k rd wr l' lr := by
    rintro l' ⟨s', children⟩ rfl rfl hkin'
    rw [List.append_nil]
    exact ⟨h.ne, h.writer_lt, h.reader_lt, h.only, h.writer.waited, h.reader, hkin'⟩
  cases hgo with
  | call hadv =>
    cases hs with
    | call hs =>
      obtain ⟨hproc, hfork⟩ := hadv.proc
      obtain ⟨hwriter, hr⟩ := h.writer.step hs hadv
      refine ⟨h.ne, h.writer_lt.trans_le hs.procs_le, h.reader_lt.trans_le hs.procs_le,
        h.only.step hs (fun q => id) fun p q heq => absurd heq (hfork p q), ?_, ?_, hkin⟩
      · exact (written_append ..) ▸ hwriter
      · show Reader _ _ _ _ _ _ (received k (es ++ [_])) _
        rw [received_append, hr, List.append_nil]
        exact h.reader.congr (other hs h.reader_lt (hproc ▸ h.ne))
  | reap =>
    cases hs
    exact hwait rfl rfl hkin
  | again =>
    cases hs
    exact (List.append_nil es).symm ▸ h
  | noChild =>
    cases hs
    exact hwait rfl rfl hkin

/-- A step of the reader keeps the invariant: the writer and all others stay where they are. -/
theorem Forked.reader_step (h : Forked prog es κ w r k rd wr lw lr) (hconv : Conveys es κ.pipes)
    (hs : KernelStep κ a κ') (hgo : Goes r lr a l) :
    Forked prog (es ++ calls [a]) κ' w r k rd wr lw l := by
  have hkin := h.kin_reader hs hgo
  have hwait : ∀ {l' κ'}, lr = .wait :: l' → κ'.pipes = κ.pipes →
      Kin κ' (prog.parent w r) (prog.child w r) (prog.parent lw l') (prog.child lw l') →
      Forked prog (es ++ []) κ' w r k rd wr lw l' := by
    rintro l' ⟨s', children⟩ rfl rfl hkin'
    rw [List.append_nil]
    exact ⟨h.ne, h.writer_lt, h.reader_lt, h.only, h.writer, h.reader.waited, hkin'⟩
  cases hgo with
  | call hadv =>
    cases hs with
    | call hs =>
      obtain ⟨hproc, hfork⟩ := hadv.proc
      obtain ⟨hreader, hw⟩ := h.reader.step hs hadv (h.isPrefix hconv) fun havail hclosed => by
        rw [(hconv.availableRead_eq_zero_iff k).mp havail]
        exact h.writer.out_eq h.writer_lt (strong_eq_zero_iff.mp (of_decide_eq_true hclosed) w)
      refine ⟨h.ne, h.writer_lt.trans_le hs.procs_le, h.reader_lt.trans_le hs.procs_le,
        h.only.step hs (fun q => id) fun p q heq => absurd heq (hfork p q), ?_, ?_, hkin⟩
      · show Writer _ _ _ _ _ _ (written k (es ++ [_])) _
        rw [written_append, hw, List.append_nil]
        exact h.writer.congr (other hs h.writer_lt (hproc ▸ h.ne.symm))
      · exact (received_append ..) ▸ hreader
  | reap =>
    cases hs
    exact hwait rfl rfl hkin
  | again =>
    cases hs
    exact (List.append_nil es).symm ▸ h
  | noChild =>
    cases hs
    exact hwait rfl rfl hkin

/-- A step of another process keeps the invariant, as it has no end of the pipe. -/
theorem Forked.other_step (h : Forked prog es κ w r k rd wr lw lr) (hs : KernelStep κ a κ')
    (hnw : a.proc ≠ w) (hnr : a.proc ≠ r) :
    Forked prog (es ++ calls [a]) κ' w r k rd wr lw lr := by
  have hkin : Kin κ' (prog.parent w r) (prog.child w r) (prog.parent lw lr) (prog.child lw lr) := by
    have hkin := h.kin
    by_cases hc : prog.childReads = true
    · simp only [Program.parent, Program.child, hc, if_true] at hkin ⊢
      exact hkin.other hs h.writer_lt h.reader_lt hnw
    · simp only [Program.parent, Program.child, hc] at hkin ⊢
      exact hkin.other hs h.reader_lt h.writer_lt hnr
  obtain ⟨hne, hwlt, hrlt, honly, hwriter, hreader, -⟩ := h
  rcases hs.pipes with ⟨e, rfl, hs', hcalls⟩ | ⟨hsame, hcalls⟩
  · have hown : ¬ (PipeTest.proc e = w ∨ PipeTest.proc e = r) := not_or.mpr ⟨hnw, hnr⟩
    obtain ⟨hw, hr⟩ := silent hs' (honly.write _ hown) (honly.read _ hown)
    rw [hcalls]
    refine ⟨hne, hwlt.trans_le hs'.procs_le, hrlt.trans_le hs'.procs_le,
      honly.step hs' (fun q => id) ?_, ?_, ?_, hkin⟩
    · rintro p' q rfl ho
      exact absurd ho hown
    · rw [written_append, hw, List.append_nil]
      exact hwriter.congr (other hs' hwlt hnw)
    · rw [received_append, hr, List.append_nil]
      exact hreader.congr (other hs' hrlt hnr)
  · rw [hcalls, List.append_nil]
    rw [← hsame] at hwlt hrlt honly hwriter hreader
    exact ⟨hne, hwlt, hrlt, honly, hwriter, hreader, hkin⟩

/-- Before the program forks, a step of another process keeps the invariant as well. -/
theorem Piped.other_step (h : Piped es κ p k rd wr) (hs : KernelStep κ a κ') (hne : a.proc ≠ p) :
    Piped (es ++ calls [a]) κ' p k rd wr := by
  obtain ⟨hlt, huser, hends, honly, hunused, hinit, hchildless⟩ := h
  have hnone : κ'.children p = [] := (hs.children_eq hinit hlt hne).trans hchildless
  rcases hs.pipes with ⟨e, rfl, hs', hcalls⟩ | ⟨hsame, hcalls⟩
  · obtain ⟨hw, hr⟩ := silent hs' (honly.write _ hne) (honly.read _ hne)
    obtain ⟨htable, hact⟩ := other hs' hlt hne
    rw [hcalls]
    refine ⟨hlt.trans_le hs'.procs_le, hact.trans huser, hends.congr htable,
      honly.step hs' (fun q => id) ?_, ?_, hinit, hnone⟩
    · rintro p' q rfl ho
      exact absurd ho hne
    · rw [written_append, received_append, hunused.1, hunused.2, hw, hr]
      exact ⟨rfl, rfl⟩
  · rw [hcalls, List.append_nil]
    rw [← hsame] at hlt huser hends honly
    exact ⟨hlt, huser, hends, honly, hunused, hinit, hnone⟩

/-- **A step keeps the invariant**, of the program or of another process. -/
theorem Step.inv (hconv : Conveys es c.kernel.pipes) (hold : Forebears c.kernel)
    (h : Inv prog es c) (hs : Step prog c a c') : Inv prog (es ++ calls [a]) c' := by
  cases hs with
  | @env κ κ' phase a hs hown =>
    cases phase with
    | start => trivial
    | piped p k rd wr => exact Piped.other_step h hs hown
    | forked w r k rd wr lw lr =>
      obtain ⟨hnw, hnr⟩ := not_or.mp hown
      exact Forked.other_step h hs hnw hnr
  | pipe hinit hchildren hs => exact piped_pipe hconv hinit hchildren hs
  | fork hs =>
    have hforked := forked_fork prog h hold hs
    rw [Inv]
    by_cases hc : prog.childReads = true
    · simp only [hc, if_true] at hforked ⊢
      exact hforked
    · simp only [hc] at hforked ⊢
      exact hforked
  | writer hs hgo => exact Forked.writer_step h hs hgo
  | reader hs hgo => exact Forked.reader_step h hconv hs hgo

/-- The pipes convey what is written along every run of the kernel. -/
theorem KernelStep.conveys (h : Conveys es κ.pipes) (hs : KernelStep κ a κ') :
    Conveys (es ++ calls [a]) κ'.pipes := by
  rcases hs.pipes with ⟨e, -, hs', hcalls⟩ | ⟨hsame, hcalls⟩
  · rw [hcalls]
    exact hs'.conveys h
  · rw [hcalls, hsame, List.append_nil]
    exact h

/-- The invariant holds after every run, together with what the pipes convey. -/
theorem inv_of_run (hrun : (programs prog).Run start tr c) :
    Conveys (calls tr) c.kernel.pipes ∧ Forebears c.kernel ∧ Inv prog (calls tr) c := by
  refine hrun.history (I := fun tr (c : Config) => Conveys (calls tr) c.kernel.pipes ∧
    Forebears c.kernel ∧ Inv prog (calls tr) c)
    ⟨conveys_boot, fun _ _ hd => absurd hd List.not_mem_nil, trivial⟩ ?_
  rintro tr c a c' ⟨hconv, hold, hinv⟩ hs
  rw [calls_append]
  exact ⟨hs.kernel.conveys hconv, hs.kernel.forebears hold, Step.inv hconv hold hinv hs⟩

/-! ## Progress -/

/-- An upper bound for the steps of a call, without the polls of `wait`. -/
def Call.work : Call → Nat
  | .close _ | .wait | .exit => 1
  | .read _ len => len + 2
  | .write _ buf => buf.length + 2

/-- What a process has still to do, as an upper bound for its steps without the polls of `wait`. -/
def work (a : Activity) (l : List Call) : Nat :=
  match a with
  | .reading _ left => left + 1 + (l.tail.map Call.work).sum
  | .writing _ left => left.length + 1 + (l.tail.map Call.work).sum
  | .user | .exited => (l.map Call.work).sum

-- the assertion `n == 5` of `t_pipe_roundtrip`
example : (tPipeRoundtrip.message.take tPipeRoundtrip.bufLen).length = 5 := rfl

end TinyOS.PipeTest
