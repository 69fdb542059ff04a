import TinyOS.Lib.Transition
import TinyOS.Trap.Context

/-!
# Trap entry and exit

`__alltraps` and `__restore` of `phase_2_proc/src/trap/trap.S`, instruction by instruction. The
entry swaps `sp` with `sscratch`, reserves a frame below the kernel stack top and saves the user's
registers and the two CSRs into it, using `t0`, `t1`, `t2` and `a0` as scratch once they are saved;
the exit takes the frame from `a0` and undoes this, restoring its own scratch registers last.

`alltraps_entered` and `restore_restored` say what each routine does, `trap_roundTrip` what the two
do together around a handler that returns the frame it was given, after any number of traps.
-/

namespace TinyOS

open Memory Riscv Transition

/-! ## The two routines -/

/-- `SAVE_GP n`: `sd x\n, \n*8(sp)`, which saves a register in its slot of the frame. -/
def saveGp (n : Reg) : Instr := .sd n (n.val * 8 : Nat) .sp

/-- `LOAD_GP n`: `ld x\n, \n*8(sp)`, which loads a register from its slot of the frame. -/
def loadGp (n : Reg) : Instr := .ld n (n.val * 8 : Nat) .sp

/-- The registers of `.set n, 5; .rept 27`: `x5` to `x31`. -/
def reptGp : List Reg := (List.finRange 27).map fun k => ⟨5 + k.val, by omega⟩

/-- `__alltraps`, up to the first instruction of `trap_handler`; `ret` is the address after the
call, which is `__restore`. -/
def alltraps (ret : Word) : List Instr :=
  [.csrrw .sp .sscratch .sp,
    .addi .sp .sp (-34 * 8),
    saveGp 1,
    saveGp 3] ++
  reptGp.map saveGp ++
  [.csrr .t0 .sstatus,
    .csrr .t1 .sepc,
    .sd .t0 (32 * 8 : Nat) .sp,
    .sd .t1 (33 * 8 : Nat) .sp,
    .csrr .t2 .sscratch,
    .sd .t2 (2 * 8 : Nat) .sp,
    .mv .a0 .sp,
    .call ret]

/-- `__restore`, up to its `sret`: it takes the frame that `a0` points to. -/
def restore : List Instr :=
  [.mv .sp .a0,
    .ld .t0 (32 * 8 : Nat) .sp,
    .ld .t1 (33 * 8 : Nat) .sp,
    .ld .t2 (2 * 8 : Nat) .sp,
    .csrw .sstatus .t0,
    .csrw .sepc .t1,
    .csrw .sscratch .t2,
    loadGp 1,
    loadGp 3] ++
  reptGp.map loadGp ++
  [.addi .sp .sp (34 * 8),
    .csrrw .sp .sscratch .sp]

/-- The general registers both routines move between the hart and the frame directly: all but the
constant `x0`, the stack pointer and the thread pointer. -/
def gpRegs : List Reg := 1 :: 3 :: reptGp

/-- The registers the two macros are applied to are all but `x0`, `sp` and `tp`. -/
theorem mem_gpRegs {r : Reg} : r ∈ gpRegs ↔ r ≠ 0 ∧ r ≠ 2 ∧ r ≠ 4 := by
  revert r; decide

/-! ## What the entry does -/

/-- The frame below the kernel stack top `K`: the 272 bytes `[K - 272, K)`. -/
def frameBelow (K : Word) : Addr := K - BitVec.ofNat 64 TrapContext.size

/-- The frame a trap from `m` uses: below the kernel stack top that `sscratch` holds. -/
def frame (m : Machine) : Addr := frameBelow (m.csr .sscratch)

/-- `m'` is at the entry of `trap_handler` after a trap from `m`. -/
structure Entered (m m' : Machine) : Prop where
  a0 : m'.get .a0 = frame m
  sp : m'.get .sp = frame m
  tp : m'.get .tp = m.get .tp
  x : ∀ i : Reg, i ≠ 0 → i ≠ 4 → (TrapContext.load m'.mem (frame m)).x i = m.get i
  sstatus : (TrapContext.load m'.mem (frame m)).sstatus = m.csr .sstatus
  sepc : (TrapContext.load m'.mem (frame m)).sepc = m.csr .sepc
  outside : ∀ a, TrapContext.size ≤ (a - frame m).toNat → m'.mem a = m.mem a

/-- The entry up to the first save: swap `sp` with `sscratch`, reserve the frame. -/
def alltrapsHead : List Instr := [.csrrw .sp .sscratch .sp, .addi .sp .sp (-34 * 8)]

/-- The entry after the last save of a general register. -/
def alltrapsTail (ret : Word) : List Instr :=
  [.csrr .t0 .sstatus, .csrr .t1 .sepc, .sd .t0 (32 * 8 : Nat) .sp, .sd .t1 (33 * 8 : Nat) .sp,
    .csrr .t2 .sscratch, .sd .t2 (2 * 8 : Nat) .sp, .mv .a0 .sp, .call ret]

/-- `__alltraps` in three parts: its head makes room for the frame, then come the saves, then
the rest. -/
theorem alltraps_eq (ret : Word) :
    alltraps ret = alltrapsHead ++ saves .sp Fin.val gpRegs ++ alltrapsTail ret := rfl

/-- The immediate of the first `addi` is the size of a frame, subtracted. -/
theorem ofInt_neg_size : BitVec.ofInt 64 (-34 * 8) = -BitVec.ofNat 64 TrapContext.size := by decide

/-- The head of `__alltraps` swaps the stacks and makes room for the frame; the rest is as it
was. -/
theorem run_alltrapsHead (m : Machine) :
    (run alltrapsHead m).get .sp = frame m ∧
    (∀ r, r ≠ .sp → (run alltrapsHead m).get r = m.get r) ∧
    (run alltrapsHead m).csr .sstatus = m.csr .sstatus ∧
    (run alltrapsHead m).csr .sepc = m.csr .sepc ∧
    (run alltrapsHead m).csr .sscratch = m.get .sp ∧ (run alltrapsHead m).mem = m.mem := by
  refine ⟨?_, fun r hr => ?_, rfl, rfl, rfl, rfl⟩
  · simp only [alltrapsHead, run_cons, run_nil, exec, ofInt_neg_size, frame, frameBelow,
      BitVec.sub_eq_add_neg]
    simp +decide [Machine.set_get]
  · simp [alltrapsHead, exec, Machine.set_get, hr]

/-- The tail of `__alltraps` saves the three control registers and passes the frame to the
handler. -/
theorem run_alltrapsTail (ret : Word) (m : Machine) :
    (run (alltrapsTail ret) m).get .a0 = m.get .sp ∧
    (run (alltrapsTail ret) m).get .sp = m.get .sp ∧
    (run (alltrapsTail ret) m).get .tp = m.get .tp ∧
    (run (alltrapsTail ret) m).mem =
      store64 (store64 (store64 m.mem (slot (m.get .sp) 32) (m.csr .sstatus))
        (slot (m.get .sp) 33) (m.csr .sepc)) (slot (m.get .sp) 2) (m.csr .sscratch) := by
  simp only [alltrapsTail, run_cons, run_nil, exec_sd_slot]
  refine ⟨?_, ?_, ?_, ?_⟩ <;> simp +decide [exec, Machine.set_get]

/-- **What `__alltraps` does.** The handler is entered with `a0` and `sp` at the frame, the frame
holds the user's registers but `x4`, and nothing outside the frame is written. -/
theorem alltraps_entered (ret : Word) (m : Machine) : Entered m (run (alltraps ret) m) := by
  rw [alltraps_eq, run_append, run_append]
  obtain ⟨hsp, hget, hst, hpc, hsc, hmem⟩ := run_alltrapsHead m
  generalize run alltrapsHead m = m₁ at *
  obtain ⟨hget₂, hcsr₂⟩ := run_saves_get .sp Fin.val gpRegs m₁
  have hload := fun j hj => run_saves .sp Fin.val gpRegs m₁
    (fun _ _ _ _ => Fin.ext) (fun r _ => by omega) (j := j) hj
  have hout := fun a ha => run_saves_outside .sp Fin.val gpRegs m₁ (n := 34)
    (fun r _ => by omega) (by omega) (a := a) ha
  generalize run (saves .sp Fin.val gpRegs) m₁ = m₂ at *
  obtain ⟨ha0₃, hsp₃, htp₃, hmem₃⟩ := run_alltrapsTail ret m₂
  generalize run (alltrapsTail ret) m₂ = m₃ at *
  rw [hget₂, hsp] at ha0₃ hsp₃ hmem₃
  rw [hcsr₂, hst, hpc, hsc] at hmem₃
  rw [hsp] at hload hout
  -- the three words that pass through a scratch register, over the run of saves
  have hword : ∀ j, j < 34 → load64 m₃.mem (slot (frame m) j) =
      if j = 2 then m.get .sp else if j = 33 then m.csr .sepc else if j = 32 then m.csr .sstatus
      else load64 m₂.mem (slot (frame m) j) := by
    intro j hj
    rw [hmem₃]
    repeat rw [load64_store64_slot _ _ _ (by omega) (by omega)]
  refine ⟨ha0₃, hsp₃, ?_, fun i h0 h4 => ?_, ?_, ?_, fun a ha => ?_⟩
  · rw [htp₃, hget₂, hget .tp (by decide)]
  · show load64 m₃.mem (slot (frame m) i) = m.get i
    rw [hword i (by omega)]
    by_cases h2 : i.val = 2
    · rw [if_pos h2, show i = .sp from Fin.ext h2]
    · have hi : i ≠ 2 := fun h => h2 (congrArg Fin.val h)
      rw [if_neg h2, if_neg (by omega), if_neg (by omega),
        (hload i (by omega)).1 i (mem_gpRegs.mpr ⟨h0, hi, h4⟩) rfl, hget i hi]
  · refine (hword 32 (by omega)).trans ?_
    rw [if_neg (by omega), if_neg (by omega), if_pos rfl]
  · refine (hword 33 (by omega)).trans ?_
    rw [if_neg (by omega), if_pos rfl]
  · rw [hmem₃, store64_slot_of_outside (n := 34) (by omega) (by omega) ha,
      store64_slot_of_outside (n := 34) (by omega) (by omega) ha,
      store64_slot_of_outside (n := 34) (by omega) (by omega) ha, hout a ha, hmem]

/-! ## What the exit does -/

/-- `m'` is at the `sret` of `__restore`, entered from `m`. -/
structure Restored (m m' : Machine) : Prop where
  x : ∀ i : Reg, i ≠ 0 → i ≠ 4 → m'.get i = (TrapContext.load m.mem (m.get .a0)).x i
  sstatus : m'.csr .sstatus = (TrapContext.load m.mem (m.get .a0)).sstatus
  sepc : m'.csr .sepc = (TrapContext.load m.mem (m.get .a0)).sepc
  tp : m'.get .tp = m.get .tp
  sscratch : m'.csr .sscratch = m.get .a0 + BitVec.ofNat 64 TrapContext.size
  mem : m'.mem = m.mem

/-- The exit up to the first load of a general register. -/
def restoreHead : List Instr :=
  [.mv .sp .a0, .ld .t0 (32 * 8 : Nat) .sp, .ld .t1 (33 * 8 : Nat) .sp, .ld .t2 (2 * 8 : Nat) .sp,
    .csrw .sstatus .t0, .csrw .sepc .t1, .csrw .sscratch .t2]

/-- The exit after the last load: pop the frame, swap `sp` with `sscratch`. -/
def restoreTail : List Instr := [.addi .sp .sp (34 * 8), .csrrw .sp .sscratch .sp]

/-- `__restore` in three parts: its head loads the control registers, then come the loads, then
the rest. -/
theorem restore_eq : restore = restoreHead ++ loads .sp Fin.val gpRegs ++ restoreTail := rfl

/-- The head of `__restore` takes the frame from `a0` and loads the control registers from it. -/
theorem run_restoreHead (m : Machine) :
    (run restoreHead m).get .sp = m.get .a0 ∧ (run restoreHead m).get .tp = m.get .tp ∧
    (run restoreHead m).csr .sstatus = load64 m.mem (slot (m.get .a0) 32) ∧
    (run restoreHead m).csr .sepc = load64 m.mem (slot (m.get .a0) 33) ∧
    (run restoreHead m).csr .sscratch = load64 m.mem (slot (m.get .a0) 2) ∧
    (run restoreHead m).mem = m.mem := by
  simp only [restoreHead, run_cons, run_nil]
  rw [exec_ld_slot _ _ 32, exec_ld_slot _ _ 33, exec_ld_slot _ _ 2]
  simp only [exec, Machine.set_mem]
  -- only the addresses of the loads matter from here on
  generalize load64 m.mem = value
  refine ⟨?_, ?_, ?_, ?_, ?_, ?_⟩ <;> simp +decide [Machine.set_get, Machine.setCsr_csr]

/-- The tail of `__restore` drops the frame and swaps the stacks back. -/
theorem run_restoreTail (m : Machine) :
    (run restoreTail m).get .sp = m.csr .sscratch ∧
    (∀ r, r ≠ .sp → (run restoreTail m).get r = m.get r) ∧
    (run restoreTail m).csr .sstatus = m.csr .sstatus ∧
    (run restoreTail m).csr .sepc = m.csr .sepc ∧
    (run restoreTail m).csr .sscratch = m.get .sp + BitVec.ofNat 64 TrapContext.size ∧
    (run restoreTail m).mem = m.mem := by
  refine ⟨?_, fun r hr => ?_, rfl, rfl, ?_, rfl⟩
  · simp +decide [restoreTail, exec, Machine.set_get]
  · simp [restoreTail, exec, Machine.set_get, hr]
  · simp +decide [restoreTail, exec, Machine.set_get, Machine.setCsr_csr, TrapContext.size,
      TrapContext.words]

/-- **What `__restore` does.** Every register but `x4` and both CSRs come from the frame `a0`
points to, `sscratch` is the end of that frame, and no memory is written. -/
theorem restore_restored (m : Machine) : Restored m (run restore m) := by
  rw [restore_eq, run_append, run_append]
  obtain ⟨hsp, htp, hst, hpc, hsc, hmem⟩ := run_restoreHead m
  generalize run restoreHead m = m₁ at *
  obtain ⟨hget₂, hcsr₂, hmem₂⟩ := run_loads .sp Fin.val gpRegs m₁
    (by decide) (by decide)
  generalize run (loads .sp Fin.val gpRegs) m₁ = m₂ at *
  obtain ⟨hsp₃, hget₃, hst₃, hpc₃, hsc₃, hmem₃⟩ := run_restoreTail m₂
  generalize run restoreTail m₂ = m₃ at *
  rw [hcsr₂] at hsp₃ hst₃ hpc₃
  rw [hget₂, if_neg (by decide), hsp] at hsc₃
  refine ⟨fun i h0 h4 => ?_, hst₃.trans hst, hpc₃.trans hpc, ?_, hsc₃, ?_⟩
  · show m₃.get i = load64 m.mem (slot (m.get .a0) i.val)
    by_cases h2 : i.val = 2
    · rw [h2, ← hsc, ← hsp₃, show i = .sp from Fin.ext h2]
    · have hi : i ≠ 2 := fun h => h2 (congrArg Fin.val h)
      rw [hget₃ i hi, hget₂, if_pos (mem_gpRegs.mpr ⟨h0, hi, h4⟩), hsp, hmem]
  · rw [hget₃ _ (by decide), hget₂, if_neg (by decide), htp]
  · rw [hmem₃, hmem₂, hmem]

/-! ## The round trip -/

/-- What a trap handler is held to: it returns the pointer it was given and leaves `x4` alone. The
other registers, the CSRs, the frame and the rest of memory are its own affair. -/
structure HandlerReturns (m m' : Machine) : Prop where
  a0 : m'.get .a0 = m.get .a0
  tp : m'.get .tp = m.get .tp

/-- What happens to one task: its user code runs, or traps into the kernel and comes back. A trap
is labelled with the pointer the handler is given. -/
inductive TaskEvent where
  | user
  | trap (cx : Addr)

/-- User code may change every register, all of memory, and through the hardware's trap `sstatus`
and `sepc`; it cannot write `sscratch`. A trap runs `__alltraps`, a handler, and `__restore`. -/
inductive TaskStep (ret : Word) : Machine → TaskEvent → Machine → Prop where
  | user {m m' : Machine} (h : m'.csr .sscratch = m.csr .sscratch) : TaskStep ret m .user m'
  | trap {m r : Machine} (h : HandlerReturns (run (alltraps ret) m) r) :
      TaskStep ret m (.trap ((run (alltraps ret) m).get .a0)) (run restore r)

/-- One task seen from user mode, from any state on. -/
def taskSystem (ret : Word) : System Machine TaskEvent where
  init _ := True
  step := TaskStep ret

/-- A trap taken at kernel stack top `K` from the user state `m` gives the user's context back.
`entered` is the state at the handler's entry and `cx₀` the frame there, `cx` is the frame as the
handler left it, and `back` the state at the `sret`. -/
structure RoundTrip (K : Word) (m entered : Machine) (cx₀ cx : TrapContext) (back : Machine) :
    Prop where
  /-- The handler is given the frame below `K`, and runs on the stack below it. -/
  a0 : entered.get .a0 = frameBelow K
  sp : entered.get .sp = frameBelow K
  frame_toNat : (frameBelow K).toNat = K.toNat - TrapContext.size
  /-- The entry writes nothing outside `[K - 272, K)`. -/
  outside : ∀ a : Addr, a.toNat < K.toNat - TrapContext.size ∨ K.toNat ≤ a.toNat →
    entered.mem a = m.mem a
  /-- The user's context is the frame as the handler left it. -/
  x : ∀ i : Reg, i ≠ 0 → i ≠ 4 → back.get i = cx.x i
  sstatus : back.csr .sstatus = cx.sstatus
  sepc : back.csr .sepc = cx.sepc
  /-- `x4` and `sscratch` are as before the trap. -/
  tp : back.get .tp = m.get .tp
  sscratch : back.csr .sscratch = K
  /-- What the handler did not change in the frame has its value from before the trap. -/
  kept_x : ∀ i : Reg, i ≠ 0 → i ≠ 4 → cx.x i = cx₀.x i → back.get i = m.get i
  kept_sstatus : cx.sstatus = cx₀.sstatus → back.csr .sstatus = m.csr .sstatus
  kept_sepc : cx.sepc = cx₀.sepc → back.csr .sepc = m.csr .sepc

/-- A frame that lies below some address ends there: dropping it gives the address back. -/
theorem frameBelow_add_size (K : Word) :
    frameBelow K + BitVec.ofNat 64 TrapContext.size = K := BitVec.sub_add_cancel K _

/-- No trap moves the kernel stack top, which `sscratch` has while the task runs. -/
theorem TaskStep.sscratch {ret : Word} {m m' : Machine} {e : TaskEvent} (h : TaskStep ret m e m') :
    m'.csr .sscratch = m.csr .sscratch := by
  cases h with
  | user h => exact h
  | trap h =>
    rw [(restore_restored _).sscratch, h.a0, (alltraps_entered ret m).a0]
    exact frameBelow_add_size _

/-- Over any number of traps the kernel stack top stays, and every handler gets the same frame. -/
theorem run_sameFrame {ret : Word} {m₀ m : Machine} {tr : List TaskEvent}
    (h : (taskSystem ret).Run m₀ tr m) :
    m.csr .sscratch = m₀.csr .sscratch ∧ ∀ cx, .trap cx ∈ tr → cx = frame m₀ := by
  refine h.history (I := fun tr m => m.csr .sscratch = m₀.csr .sscratch ∧
    ∀ cx, .trap cx ∈ tr → cx = frame m₀) ⟨rfl, by simp⟩ ?_
  rintro tr m e m' ⟨hK, hframe⟩ hs
  refine ⟨(TaskStep.sscratch hs).trans hK, fun cx hcx => ?_⟩
  rcases List.mem_append.mp hcx with hcx | hcx
  · exact hframe cx hcx
  · cases hs with
    | user _ => simp at hcx
    | trap _ =>
      rw [List.mem_singleton, TaskEvent.trap.injEq] at hcx
      rw [hcx, (alltraps_entered ret m).a0, frame, hK, frame]

/-- **Trap entry and exit are inverse on the user context.** After any number of traps of a task
whose kernel stack top is `K`, a trap whose handler returns its argument leads back to user mode
with every register but `x4` and both CSRs taken from the frame as the handler left it, with `x4`
untouched and `sscratch = K`; and all these traps use the one frame `[K - 272, K)`. -/
theorem trap_roundTrip {ret : Word} {m₀ m r : Machine} {tr : List TaskEvent}
    (hK : TrapContext.size ≤ (m₀.csr .sscratch).toNat) (hrun : (taskSystem ret).Run m₀ tr m)
    (hr : HandlerReturns (run (alltraps ret) m) r) :
    RoundTrip (m₀.csr .sscratch) m (run (alltraps ret) m)
      (TrapContext.load (run (alltraps ret) m).mem (frameBelow (m₀.csr .sscratch)))
      (TrapContext.load r.mem (frameBelow (m₀.csr .sscratch))) (run restore r) ∧
    ∀ cx, .trap cx ∈ tr → cx = frameBelow (m₀.csr .sscratch) := by
  obtain ⟨hsame, hframes⟩ := run_sameFrame hrun
  refine ⟨?_, hframes⟩
  have he := alltraps_entered ret m
  have hb := restore_restored r
  rw [← hsame] at hK ⊢
  have hp : r.get .a0 = frameBelow (m.csr .sscratch) := hr.a0.trans he.a0
  have hlt : TrapContext.size < 2 ^ 64 := by decide
  have hnat : (frameBelow (m.csr .sscratch)).toNat =
      (m.csr .sscratch).toNat - TrapContext.size := by
    rw [frameBelow, BitVec.toNat_sub, BitVec.toNat_ofNat, Nat.mod_eq_of_lt hlt]
    have := (m.csr .sscratch).isLt
    omega
  refine ⟨he.a0, he.sp, hnat, fun a ha => he.outside a ?_, fun i h0 h4 => ?_, ?_, ?_, ?_, ?_,
    fun i h0 h4 hk => ?_, fun hk => ?_, fun hk => ?_⟩
  · rw [frame, BitVec.toNat_sub, hnat]
    have := (m.csr .sscratch).isLt
    have := a.isLt
    omega
  · rw [hb.x i h0 h4, hp]
  · rw [hb.sstatus, hp]
  · rw [hb.sepc, hp]
  · rw [hb.tp, hr.tp, he.tp]
  · rw [hb.sscratch, hp, frameBelow_add_size]
  · rw [hb.x i h0 h4, hp, hk]; exact he.x i h0 h4
  · rw [hb.sstatus, hp, hk]; exact he.sstatus
  · rw [hb.sepc, hp, hk]; exact he.sepc

/-- A handler that answers a system call: it writes 42 into `x[10]` of the frame and leaves `t0` as
it happens to be. -/
def answer (entered : Machine) : Machine :=
  (entered.store (slot (entered.get .a0) 10) 42).set .t0 0

/-- This handler returns with the frame in `a0`, as the calling convention requires. -/
theorem answer_returns (entered : Machine) : HandlerReturns entered (answer entered) where
  a0 := by rw [answer, Machine.set_get, if_neg (by decide), Machine.store_get]
  tp := by rw [answer, Machine.set_get, if_neg (by decide), Machine.store_get]

/-- The frame that such a handler leaves: its `x[10]` is 42, and the other words are as they
were. -/
theorem load_answer (entered : Machine) {i : Nat} (hi : i < 34) :
    load64 (answer entered).mem (slot (entered.get .a0) i) =
      if i = 10 then 42 else load64 entered.mem (slot (entered.get .a0) i) := by
  rw [answer, Machine.set_mem, Machine.store_mem,
    load64_store64_slot _ _ _ (by decide) (by omega)]

/-- A task with kernel stack top 4096 makes two system calls. After the second one, too, it has the
answer in `a0`, the value from before in `t0`, and the stack top in `sscratch`. -/
theorem trap_roundTrip_twice :
    let m₀ : Machine := ⟨fun _ => 7, fun _ => 4096, fun _ => 0⟩
    let m := run restore (answer (run (alltraps 0) m₀))
    let back := run restore (answer (run (alltraps 0) m))
    (taskSystem 0).Run m₀ [.trap (frameBelow 4096)] m ∧ back.get .a0 = 42 ∧
      back.get .t0 = m.get .t0 ∧ back.csr .sscratch = 4096 := by
  intro m₀ m back
  have hrun : (taskSystem 0).Run m₀ [.trap (frame m₀)] m := by
    rw [← (alltraps_entered 0 m₀).a0]
    exact .snoc (.nil m₀) (.trap (answer_returns _))
  obtain ⟨htrip, -⟩ := trap_roundTrip (by decide) hrun (answer_returns (run (alltraps 0) m))
  have hload := fun i hi => load_answer (run (alltraps 0) m) (i := i) hi
  rw [htrip.a0] at hload
  refine ⟨hrun, ?_, htrip.kept_x .t0 (by decide) (by decide) ?_, htrip.sscratch⟩
  · rw [htrip.x .a0 (by decide) (by decide)]
    exact (hload 10 (by decide)).trans (if_pos rfl)
  · exact (hload 5 (by decide)).trans (if_neg (by decide))

end TinyOS
