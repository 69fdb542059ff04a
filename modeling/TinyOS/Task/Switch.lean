import TinyOS.Trap.Asm

/-!
# Switching between kernel stacks

`TaskContext` of `phase_2_proc/src/task/context.rs` and the routine `__switch` that the header of
`phase_2_proc/src/task/switch.S` specifies: fourteen stores of `ra`, `sp`, `s0`–`s11` to the context
`a0` points to, fourteen loads from the one `a1` points to, and a `ret` through the loaded `ra`. All
other registers pass through, `a0` among them.
-/

namespace TinyOS

open Memory Riscv

/-- `struct TaskContext`: the return address, the kernel stack pointer and the callee-saved
registers. -/
structure TaskContext where
  ra : Word
  sp : Word
  s : Fin 12 → Word

namespace TaskContext

/-- The number of words of a context: 14 words, 112 bytes. -/
def words : Nat := 14

/-- The bytes of a context in memory, eight for each of its words. -/
def size : Nat := words * 8

/-- The context of a task that has not run yet: the first switch into it returns to `__restore`,
at address `restoreAddr`. -/
def gotoRestore (restoreAddr kstackTop : Word) : TaskContext := ⟨restoreAddr, kstackTop, fun _ => 0⟩

/-- Word `i` of the `repr(C)` layout: the return address, the stack pointer, then `s0` to `s11`. -/
def word (cx : TaskContext) (i : Nat) : Word :=
  if i = 0 then cx.ra else if i = 1 then cx.sp
  else if h : i - 2 < 12 then cx.s ⟨i - 2, h⟩ else 0

/-- The return address of the context at `p`, which `__switch` returns to when it has loaded the
context. -/
def loadRa (m : Mem) (p : Addr) : Word := load64 m (slot p 0)

/-- Write a context at `p`, word by word in its layout. -/
def store (m : Mem) (p : Addr) (cx : TaskContext) : Mem := storeWords m p words cx.word

/-- The return address is read back from a context that was written. -/
theorem loadRa_store (m : Mem) (p : Addr) (cx : TaskContext) : loadRa (store m p cx) p = cx.ra :=
  load64_storeWords m p cx.word (by decide) (by decide)

/-- The return address only depends on the context's own bytes. -/
theorem loadRa_congr {m m' : Mem} {p : Addr}
    (h : ∀ j, j < size → m (p + BitVec.ofNat 64 j) = m' (p + BitVec.ofNat 64 j)) :
    loadRa m p = loadRa m' p := load64_slot_congr (by decide : 0 < words) h

end TaskContext

/-- `ra`, `sp`, `s0`, `s1`, `s2`, …, `s11`, in the order of their offsets in a `TaskContext`. -/
def calleeSaved : List Reg := [1, 2, 8, 9, 18, 19, 20, 21, 22, 23, 24, 25, 26, 27]

/-- The word of a `TaskContext` that belongs to a register. -/
def contextWord (r : Reg) : Nat := calleeSaved.idxOf r

/-- `__switch`, up to its `ret`: the outgoing context is saved and the incoming one loaded. -/
def switch : List Instr :=
  saves .a0 contextWord calleeSaved ++ loads .a1 contextWord calleeSaved

/-- **What `__switch` does.** The old context gets `ra`, nothing outside it is written, the new
`ra` comes from the new context as it then is, and `a0` still points to the old context. -/
theorem run_switch (m : Machine) :
    TaskContext.loadRa (run switch m).mem (m.get .a0) = m.get .ra ∧
    (∀ a, TaskContext.size ≤ (a - m.get .a0).toNat → (run switch m).mem a = m.mem a) ∧
    (run switch m).get .ra = TaskContext.loadRa (run switch m).mem (m.get .a1) ∧
    (run switch m).get .a0 = m.get .a0 := by
  rw [switch, run_append]
  have hload := (run_saves .a0 contextWord calleeSaved m (by decide) (by decide)
    (j := 0) (by decide)).1 .ra (by decide) (by decide)
  have hout := fun a ha => run_saves_outside .a0 contextWord calleeSaved m (n := 14)
    (by decide) (by decide) (a := a) ha
  obtain ⟨hget, -⟩ := run_saves_get .a0 contextWord calleeSaved m
  generalize run (saves .a0 contextWord calleeSaved) m = m₁ at *
  obtain ⟨hget₂, -, hmem₂⟩ := run_loads .a1 contextWord calleeSaved m₁ (by decide) (by decide)
  generalize run (loads .a1 contextWord calleeSaved) m₁ = m₂ at *
  rw [hmem₂]
  refine ⟨hload, hout, ?_, ?_⟩
  · rw [hget₂, if_pos (by decide), hget]
    exact congrArg (fun i => load64 m₁.mem (slot (m.get .a1) i)) (by decide)
  · rw [hget₂, if_neg (by decide), hget]

end TinyOS
