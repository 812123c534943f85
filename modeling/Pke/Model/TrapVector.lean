import Mathlib.Data.BitVec
import Pke.Model.Process

/-! # The assembly of the trap entries and returns

`strap_vector.S`, `machine/mtrap_vector.S` and the two macros of `util/load_store.S`, as sequences of the
instructions they use. Registers and doublewords of memory are 64-bit words. `sfence.vma`, which has no
effect on these, is left out, and a sequence ends before the jump, call or return that leaves it.
-/

namespace Pke.Model

abbrev Word := BitVec 64

inductive Csr where
  | sscratch | satp | mscratch | mhartid
deriving DecidableEq, Repr

/-- The part of a hart that the vectors work on; memory is addressed by doublewords. -/
structure Hart where
  regs : Reg → Word
  csrs : Csr → Word
  mem : Word → Word

inductive Instr where
  | csrrw (rd : Reg) (csr : Csr) (rs : Reg)
  | csrr (rd : Reg) (csr : Csr)
  | csrw (csr : Csr) (rs : Reg)
  | addi (rd rs : Reg) (imm : Word)
  | li (rd : Reg) (imm : Word)
  | mul (rd rs rs' : Reg)
  | add (rd rs rs' : Reg)
  | sd (rs : Reg) (offset : Word) (base : Reg)
  | ld (rd : Reg) (offset : Word) (base : Reg)
deriving DecidableEq, Repr

namespace Hart

def setReg (h : Hart) (rd : Reg) (word : Word) : Hart := { h with regs := Function.update h.regs rd word }

def setCsr (h : Hart) (csr : Csr) (word : Word) : Hart := { h with csrs := Function.update h.csrs csr word }

def store (h : Hart) (address word : Word) : Hart := { h with mem := Function.update h.mem address word }

def exec (h : Hart) : Instr → Hart
  | .csrrw rd csr rs => (h.setReg rd (h.csrs csr)).setCsr csr (h.regs rs)
  | .csrr rd csr => h.setReg rd (h.csrs csr)
  | .csrw csr rs => h.setCsr csr (h.regs rs)
  | .addi rd rs imm => h.setReg rd (h.regs rs + imm)
  | .li rd imm => h.setReg rd imm
  | .mul rd rs rs' => h.setReg rd (h.regs rs * h.regs rs')
  | .add rd rs rs' => h.setReg rd (h.regs rs + h.regs rs')
  | .sd rs offset base => h.store (h.regs base + offset) (h.regs rs)
  | .ld rd offset base => h.setReg rd (h.mem (h.regs base + offset))

def run (h : Hart) (code : List Instr) : Hart := code.foldl exec h

end Hart

/-- The fields of `riscv_regs` with their offsets, in the order in which the macros access them. -/
def riscvRegs : List (Reg × Word) :=
  [(.ra, 0), (.sp, 8), (.gp, 16), (.tp, 24), (.t0, 32), (.t1, 40), (.t2, 48), (.s0, 56), (.s1, 64),
    (.a0, 72), (.a1, 80), (.a2, 88), (.a3, 96), (.a4, 104), (.a5, 112), (.a6, 120), (.a7, 128),
    (.s2, 136), (.s3, 144), (.s4, 152), (.s5, 160), (.s6, 168), (.s7, 176), (.s8, 184), (.s9, 192),
    (.s10, 200), (.s11, 208), (.t3, 216), (.t4, 224), (.t5, 232), (.t6, 240)]

/-- The macro `store_all_registers`. -/
def storeAllRegisters : List Instr := riscvRegs.map fun field => .sd field.1 field.2 .t6

/-- The macro `restore_all_registers`. -/
def restoreAllRegisters : List Instr := riscvRegs.map fun field => .ld field.1 field.2 .t6

/-- `smode_trap_vector` up to the jump to `smode_trap_handler`. -/
def smodeTrapVector : List Instr :=
  [.csrrw .a0 .sscratch .a0, .addi .t6 .a0 0] ++ storeAllRegisters ++
    [.csrr .t0 .sscratch, .sd .t0 72 .a0, .ld .sp 248 .a0, .ld .t0 256 .a0, .ld .t1 272 .a0, .csrw .satp .t1]

/-- `return_to_user` up to `sret`. -/
def returnToUser : List Instr := [.csrw .satp .a1, .csrw .sscratch .a0, .addi .t6 .a0 0] ++ restoreAllRegisters

/-- `mtrapvec` up to the call of `handle_mtrap`, with the machine stacks at `stack0`. -/
def mtrapvecEntry (stack0 : Word) : List Instr :=
  [.csrrw .a0 .mscratch .a0, .addi .t6 .a0 0] ++ storeAllRegisters ++
    [.csrr .t0 .mscratch, .sd .t0 72 .a0, .li .sp stack0, .li .a3 4096, .csrr .a4 .mhartid, .addi .a4 .a4 1,
      .mul .a3 .a3 .a4, .add .sp .sp .a3, .csrw .mscratch .a0]

/-- `mtrapvec` from the return of `handle_mtrap` to `mret`. -/
def mtrapvecExit : List Instr := [.csrr .t6 .mscratch] ++ restoreAllRegisters

end Pke.Model
