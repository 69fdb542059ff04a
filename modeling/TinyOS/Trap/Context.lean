import TinyOS.Lib.Riscv

/-!
# The trap frame

`TrapContext` of `phase_2_proc/src/trap/context.rs`: 34 words, `repr(C)`, so word `i` of the frame
is `x[i]` for `i < 32`, then `sstatus`, then `sepc`. `TrapContext.load` reads a frame out of memory
in that layout and `TrapContext.store` writes one.
-/

namespace TinyOS

open Memory Riscv

/-- `struct TrapContext`: the 32 registers and two control registers of the interrupted user
code. -/
structure TrapContext where
  x : Reg → Word
  sstatus : Word
  sepc : Word

namespace TrapContext

/-- The number of words of a frame: 32 registers and two control registers. -/
def words : Nat := 34

/-- `core::mem::size_of::<TrapContext>()`, the bytes of a frame. -/
def size : Nat := words * 8

/-- A fresh frame for a user app with entry point `entry` and user stack top `sp`. -/
def appInitContext (entry sp : Word) : TrapContext :=
  let sppUser : Word := 0 <<< 8
  let spie : Word := 1 <<< 5
  { x := Function.update (fun _ => 0) .sp sp, sstatus := sppUser ||| spie, sepc := entry }

/-- Word `i` of the `repr(C)` layout: the registers, then `sstatus`, then `sepc`. -/
def word (cx : TrapContext) (i : Nat) : Word :=
  if h : i < 32 then cx.x ⟨i, h⟩ else if i = 32 then cx.sstatus else cx.sepc

/-- The frame that lies at `p`, word by word. -/
def load (m : Mem) (p : Addr) : TrapContext where
  x i := load64 m (slot p i)
  sstatus := load64 m (slot p 32)
  sepc := load64 m (slot p 33)

/-- Write a frame at `p`, word by word in its layout. -/
def store (m : Mem) (p : Addr) (cx : TrapContext) : Mem := storeWords m p words cx.word

/-- A frame that was written is read back, all of its words. -/
@[simp] theorem load_store (m : Mem) (p : Addr) (cx : TrapContext) :
    load (store m p cx) p = cx := by
  have h : ∀ j, j < words → load64 (store m p cx) (slot p j) = cx.word j := fun j hj =>
    load64_storeWords m p cx.word (by decide) hj
  have hx : ∀ i : Reg, load64 (store m p cx) (slot p i) = cx.x i := fun i => by
    rw [h i (i.isLt.trans (by decide)), word, dif_pos i.isLt]
  cases cx
  simp only [load, hx, h 32 (by decide), h 33 (by decide), word, mk.injEq, true_and]
  exact ⟨rfl, rfl⟩

end TrapContext

end TinyOS
