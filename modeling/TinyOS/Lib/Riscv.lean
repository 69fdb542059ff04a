import TinyOS.Lib.Memory

/-!
# Straight-line RV64 supervisor code

The registers, the supervisor CSRs and the memory of one hart, and the instructions a hand-written
save or restore routine is made of. Code is a list of instructions without jumps: a routine ends at
its `ret` or `sret`, and a `call` is the point where its callee takes over, so neither is executed
here; `call` only links the return address. The CSRs are plain 64-bit registers.

Two blocks occur in every such routine and are treated once: a run of stores of registers to the
slots of a save area, and a run of loads back from them (`run_saves`, `run_loads`). The slot of a
register is a parameter, so one lemma serves a full trap frame and a callee-saved context alike.
-/

namespace Riscv

open Memory

/-- The integer registers `x0` to `x31`, by their numbers. -/
abbrev Reg := Fin 32

/-- Numerals name registers: there is at least one. -/
instance Reg.neZero : NeZero 32 := ⟨by decide⟩

/-- The return address, which `call` sets. -/
abbrev Reg.ra : Reg := 1

/-- The stack pointer. -/
abbrev Reg.sp : Reg := 2

/-- The thread pointer. -/
abbrev Reg.tp : Reg := 4

/-- The first of the temporaries. -/
abbrev Reg.t0 : Reg := 5

/-- The second of the temporaries. -/
abbrev Reg.t1 : Reg := 6

/-- The third of the temporaries. -/
abbrev Reg.t2 : Reg := 7

/-- The first argument, and the result. -/
abbrev Reg.a0 : Reg := 10

/-- The second argument. -/
abbrev Reg.a1 : Reg := 11

/-- The control and status registers a trap handler saves and restores. -/
inductive Csr where
  | sstatus
  | sepc
  | sscratch
  deriving DecidableEq, Repr

/-- The state of a hart. The entry of `x0` is never read. -/
structure Machine where
  x : Reg → Word
  csr : Csr → Word
  mem : Mem

namespace Machine

/-- The value of a register, where `x0` reads as zero whatever its entry is. -/
def get (m : Machine) (r : Reg) : Word := if r = 0 then 0 else m.x r

/-- Write a register; a write to `x0` is not seen, as `x0` is not read. -/
def set (m : Machine) (r : Reg) (w : Word) : Machine := { m with x := Function.update m.x r w }

/-- Write a control and status register, all of its bits. -/
def setCsr (m : Machine) (c : Csr) (w : Word) : Machine :=
  { m with csr := Function.update m.csr c w }

/-- Store a word in memory, eight bytes from `a` on. -/
def store (m : Machine) (a : Addr) (w : Word) : Machine := { m with mem := store64 m.mem a w }

/-- Writing a register leaves the control and status registers. -/
@[simp] theorem set_csr (m : Machine) (r : Reg) (w : Word) : (m.set r w).csr = m.csr := rfl

/-- Writing a register leaves the memory. -/
@[simp] theorem set_mem (m : Machine) (r : Reg) (w : Word) : (m.set r w).mem = m.mem := rfl

/-- Writing a control and status register leaves the memory. -/
@[simp] theorem setCsr_mem (m : Machine) (c : Csr) (w : Word) : (m.setCsr c w).mem = m.mem := rfl

/-- Writing a control and status register leaves the integer registers. -/
@[simp] theorem setCsr_get (m : Machine) (c : Csr) (w : Word) (r : Reg) :
    (m.setCsr c w).get r = m.get r := rfl

/-- Storing a word leaves the integer registers. -/
@[simp] theorem store_get (m : Machine) (a : Addr) (w : Word) (r : Reg) :
    (m.store a w).get r = m.get r := rfl

/-- Storing a word leaves the control and status registers. -/
@[simp] theorem store_csr (m : Machine) (a : Addr) (w : Word) : (m.store a w).csr = m.csr := rfl

/-- The memory after a word was stored. -/
@[simp] theorem store_mem (m : Machine) (a : Addr) (w : Word) :
    (m.store a w).mem = store64 m.mem a w := rfl

/-- A register that was written has the new value, unless it is `x0`, and the others keep theirs. -/
theorem set_get (m : Machine) (r r' : Reg) (w : Word) :
    (m.set r w).get r' = if r' = r ∧ r' ≠ 0 then w else m.get r' := by
  unfold get set
  by_cases h0 : r' = 0
  · simp [h0]
  · by_cases hr : r' = r
    · subst hr; simp [h0]
    · simp [h0, hr]

/-- A control and status register that was written has the new value, and the others keep theirs. -/
theorem setCsr_csr (m : Machine) (c c' : Csr) (w : Word) :
    (m.setCsr c w).csr c' = if c' = c then w else m.csr c' := Function.update_apply ..

end Machine

/-- The instructions the trap and switch code is made of. -/
inductive Instr where
  /-- `sd rs2, off(rs1)` -/
  | sd (rs2 : Reg) (off : Int) (rs1 : Reg)
  /-- `ld rd, off(rs1)` -/
  | ld (rd : Reg) (off : Int) (rs1 : Reg)
  | addi (rd rs1 : Reg) (imm : Int)
  | mv (rd rs : Reg)
  | csrrw (rd : Reg) (csr : Csr) (rs : Reg)
  | csrr (rd : Reg) (csr : Csr)
  | csrw (csr : Csr) (rs : Reg)
  /-- `call f`, up to the first instruction of `f`: `ra` is the return address. -/
  | call (ret : Word)
  deriving DecidableEq

/-- What one instruction does to the machine, the program counter apart. -/
def exec (m : Machine) : Instr → Machine
  | .sd rs2 off rs1 => m.store (m.get rs1 + BitVec.ofInt 64 off) (m.get rs2)
  | .ld rd off rs1 => m.set rd (load64 m.mem (m.get rs1 + BitVec.ofInt 64 off))
  | .addi rd rs1 imm => m.set rd (m.get rs1 + BitVec.ofInt 64 imm)
  | .mv rd rs => m.set rd (m.get rs)
  | .csrrw rd csr rs => (m.setCsr csr (m.get rs)).set rd (m.csr csr)
  | .csrr rd csr => m.set rd (m.csr csr)
  | .csrw csr rs => m.setCsr csr (m.get rs)
  | .call ret => m.set .ra ret

/-- A straight-line block: its instructions are executed one after the other. -/
def run (code : List Instr) (m : Machine) : Machine := code.foldl exec m

/-- An empty block does nothing. -/
@[simp] theorem run_nil (m : Machine) : run [] m = m := rfl

/-- A block executes its first instruction and then the others. -/
@[simp] theorem run_cons (i : Instr) (code : List Instr) (m : Machine) :
    run (i :: code) m = run code (exec m i) := rfl

/-- Two blocks in a row are executed one after the other. -/
theorem run_append (c c' : List Instr) (m : Machine) : run (c ++ c') m = run c' (run c m) :=
  List.foldl_append

/-- The offset of a slot, eight bytes for each of the words before it, as an immediate. -/
theorem ofInt_mul_eight (i : Nat) : BitVec.ofInt 64 ((i : Int) * 8) = BitVec.ofNat 64 (8 * i) := by
  rw [← BitVec.ofInt_natCast]
  congr 1
  push_cast
  exact Int.mul_comm ..

/-! ## Save areas

`saves base ix rs` stores each register `r` of `rs` to slot `ix r` of the save area that `base`
points to, `loads base ix rs` loads them back.
-/

/-- A block that stores registers in slots from a base on, in the given order. -/
def saves (base : Reg) (ix : Reg → Nat) (rs : List Reg) : List Instr :=
  rs.map fun r => .sd r (ix r * 8 : Nat) base

/-- A block that loads registers from slots from a base on, in the given order. -/
def loads (base : Reg) (ix : Reg → Nat) (rs : List Reg) : List Instr :=
  rs.map fun r => .ld r (ix r * 8 : Nat) base

section
variable (base : Reg) (ix : Reg → Nat)

/-- Storing a register in a slot, as the assembler writes the offset. -/
theorem exec_sd_slot (m : Machine) (r : Reg) (i : Nat) (base : Reg) :
    exec m (.sd r (i * 8 : Nat) base) = m.store (slot (m.get base) i) (m.get r) := by
  rw [exec, slot, Nat.cast_mul]
  exact congrArg (fun o => m.store (m.get base + o) (m.get r)) (ofInt_mul_eight i)

/-- Loading a register from a slot, as the assembler writes the offset. -/
theorem exec_ld_slot (m : Machine) (r : Reg) (i : Nat) (base : Reg) :
    exec m (.ld r (i * 8 : Nat) base) = m.set r (load64 m.mem (slot (m.get base) i)) := by
  rw [exec, slot, Nat.cast_mul]
  exact congrArg (fun o => m.set r (load64 m.mem (m.get base + o))) (ofInt_mul_eight i)

/-- A run of saves changes no register and no CSR. -/
theorem run_saves_get (rs : List Reg) (m : Machine) :
    (∀ r, (run (saves base ix rs) m).get r = m.get r) ∧ (run (saves base ix rs) m).csr = m.csr := by
  induction rs generalizing m with
  | nil => exact ⟨fun _ => rfl, rfl⟩
  | cons r rs ih => exact ih (exec m (.sd r (ix r * 8 : Nat) base))

/-- **A run of saves.** The slot of each register saved holds its value, every other slot what it
held before. -/
theorem run_saves (rs : List Reg) (m : Machine) (hinj : ∀ r ∈ rs, ∀ r' ∈ rs, ix r = ix r' → r = r')
    (hlt : ∀ r ∈ rs, ix r < 2 ^ 32) {j : Nat} (hj : j < 2 ^ 32) :
    (∀ r ∈ rs, ix r = j →
      load64 (run (saves base ix rs) m).mem (slot (m.get base) j) = m.get r) ∧
    ((∀ r ∈ rs, ix r ≠ j) →
      load64 (run (saves base ix rs) m).mem (slot (m.get base) j) =
        load64 m.mem (slot (m.get base) j)) := by
  induction rs generalizing m with
  | nil => exact ⟨fun _ h => absurd h (by simp), fun _ => rfl⟩
  | cons r rs ih =>
    have hstep : run (saves base ix (r :: rs)) m =
        run (saves base ix rs) (m.store (slot (m.get base) (ix r)) (m.get r)) := by
      rw [← exec_sd_slot]; rfl
    obtain ⟨ih1, ih2⟩ := ih (m.store (slot (m.get base) (ix r)) (m.get r))
      (fun a ha b hb => hinj a (by simp [ha]) b (by simp [hb])) fun a ha => hlt a (by simp [ha])
    simp only [Machine.store_get, Machine.store_mem] at ih1 ih2
    rw [hstep]
    have hslot := load64_store64_slot m.mem (m.get base) (m.get r) (hlt r (by simp)) hj
    refine ⟨fun a ha hja => ?_, fun hno => ?_⟩
    · by_cases hmem : a ∈ rs
      · exact ih1 a hmem hja
      · -- `a` is the register stored first, and no later store hits its slot
        have har : a = r := (List.mem_cons.mp ha).resolve_right hmem
        subst har
        rw [ih2 fun b hb hbj => hmem (hinj b (by simp [hb]) a (by simp) (hbj.trans hja.symm) ▸ hb),
          hslot, if_pos hja.symm]
    · rw [ih2 fun b hb => hno b (by simp [hb]), hslot, if_neg fun h => hno r (by simp) h.symm]

/-- A run of saves writes only inside a save area of `n` slots. -/
theorem run_saves_outside (rs : List Reg) (m : Machine) {n : Nat} (hlt : ∀ r ∈ rs, ix r < n)
    (hn : n < 2 ^ 32) {a : Addr} (ha : 8 * n ≤ (a - m.get base).toNat) :
    (run (saves base ix rs) m).mem a = m.mem a := by
  induction rs generalizing m with
  | nil => rfl
  | cons r rs ih =>
    have hstep : run (saves base ix (r :: rs)) m =
        run (saves base ix rs) (m.store (slot (m.get base) (ix r)) (m.get r)) := by
      rw [← exec_sd_slot]; rfl
    rw [hstep, ih (m.store _ _) (fun b hb => hlt b (by simp [hb])) ha]
    exact store64_slot_of_outside (hlt r (by simp)) hn ha

/-- **A run of loads.** Each register loaded has the value of its slot, every other register, the
CSRs and the memory are as before; the pointer must not be among the registers loaded. -/
theorem run_loads (rs : List Reg) (m : Machine) (hbase : base ∉ rs) (h0 : (0 : Reg) ∉ rs) :
    (∀ r, (run (loads base ix rs) m).get r =
      if r ∈ rs then load64 m.mem (slot (m.get base) (ix r)) else m.get r) ∧
    (run (loads base ix rs) m).csr = m.csr ∧ (run (loads base ix rs) m).mem = m.mem := by
  induction rs generalizing m with
  | nil => exact ⟨fun _ => rfl, rfl, rfl⟩
  | cons r rs ih =>
    simp only [List.mem_cons, not_or] at hbase h0
    have hstep : run (loads base ix (r :: rs)) m =
        run (loads base ix rs) (m.set r (load64 m.mem (slot (m.get base) (ix r)))) := by
      rw [← exec_ld_slot]; rfl
    obtain ⟨ih1, ih2, ih3⟩ := ih (m.set r (load64 m.mem (slot (m.get base) (ix r)))) hbase.2 h0.2
    rw [hstep]
    refine ⟨fun r' => ?_, ih2, ih3⟩
    have hb : (m.set r (load64 m.mem (slot (m.get base) (ix r)))).get base = m.get base := by
      rw [Machine.set_get, if_neg fun h => hbase.1 h.1]
    rw [ih1, hb, Machine.set_mem, Machine.set_get]
    by_cases hr : r' = r
    · subst hr; simp [Ne.symm h0.1]
    · simp [hr]

end

end Riscv
