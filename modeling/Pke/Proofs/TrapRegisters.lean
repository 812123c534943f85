import Pke.Model.TrapVector

/-! # The registers across a trap

Both vectors swap `a0` with the scratch register, which points to a frame, copy it to `t6` and store all
registers through `t6`. The frame therefore holds the address of the frame in place of `t6`, and the
registers come back as they were exactly if `t6` held that address before.
-/

namespace Pke.Proofs

open Pke.Model

namespace Hart

variable {h : Hart}

@[simp] theorem run_nil (h : Hart) : h.run [] = h := rfl

@[simp] theorem run_cons (h : Hart) (i : Instr) (code : List Instr) :
    h.run (i :: code) = (h.exec i).run code := rfl

theorem run_append (h : Hart) (first second : List Instr) :
    h.run (first ++ second) = (h.run first).run second :=
  List.foldl_append

private theorem setReg_self (h : Hart) (rd : Reg) (word : Word) : (h.setReg rd word).regs rd = word :=
  Function.update_self ..

/-- Stores through `t6` to different offsets. -/
theorem run_stores (fields : List (Reg × Word)) (h : Hart) (distinct : (fields.map Prod.snd).Nodup) :
    (h.run (fields.map fun field => .sd field.1 field.2 .t6)).regs = h.regs ∧
      (h.run (fields.map fun field => .sd field.1 field.2 .t6)).csrs = h.csrs ∧
      (∀ field ∈ fields, (h.run (fields.map fun field => .sd field.1 field.2 .t6)).mem
        (h.regs .t6 + field.2) = h.regs
      field.1) ∧
      ∀ offset ∉ fields.map Prod.snd, (h.run (fields.map fun field => .sd field.1 field.2 .t6)).mem
      (h.regs .t6 + offset) = h.mem (h.regs .t6 + offset) := by
  induction fields generalizing h with
  | nil => exact ⟨rfl, rfl, fun _ none => absurd none List.not_mem_nil, fun _ _ => rfl⟩
  | cons field rest ih =>
    obtain ⟨fresh, others⟩ := List.nodup_cons.mp distinct
    obtain ⟨regs, csrs, stored, kept⟩ := ih (h.exec (.sd field.1 field.2 .t6)) others
    refine ⟨regs, csrs, fun other member => ?_, fun offset apart => ?_⟩
    · rcases List.mem_cons.mp member with rfl | later
      · exact (kept other.2 fresh).trans (Function.update_self ..)
      · exact stored other later
    · obtain ⟨first, later⟩ := not_or.mp (mt List.mem_cons.mpr apart)
      refine (kept offset later).trans (Function.update_of_ne (fun same => first ?_) _ _)
      exact add_left_cancel same

/-- Loads through `t6` into different registers other than `t6`. -/
private theorem run_loads (fields : List (Reg × Word)) (h : Hart) (distinct : (fields.map Prod.fst).Nodup)
    (base : .t6 ∉ fields.map Prod.fst) :
    (h.run (fields.map fun field => .ld field.1 field.2 .t6)).mem = h.mem ∧
      (∀ field ∈ fields, (h.run (fields.map fun field => .ld field.1 field.2 .t6)).regs field.1 = h.mem
      (h.regs .t6 + field.2)) ∧
      ∀ r ∉ fields.map Prod.fst, (h.run (fields.map fun field => .ld field.1 field.2 .t6)).regs r =
      h.regs r := by
  induction fields generalizing h with
  | nil => exact ⟨rfl, fun _ none => absurd none List.not_mem_nil, fun _ _ => rfl⟩
  | cons field rest ih =>
    obtain ⟨fresh, others⟩ := List.nodup_cons.mp distinct
    obtain ⟨notFirst, notLater⟩ := not_or.mp (mt List.mem_cons.mpr base)
    have still : (h.exec (.ld field.1 field.2 .t6)).regs .t6 = h.regs .t6 := Function.update_of_ne notFirst _ _
    obtain ⟨mem, loaded, kept⟩ := ih (h.exec (.ld field.1 field.2 .t6)) others notLater
    refine ⟨mem, fun other member => ?_, fun r apart => ?_⟩
    · rcases List.mem_cons.mp member with rfl | later
      · exact (kept other.1 fresh).trans (Function.update_self ..)
      · exact (loaded other later).trans (by rw [still]; rfl)
    · obtain ⟨first, later⟩ := not_or.mp (mt List.mem_cons.mpr apart)
      exact (kept r later).trans (Function.update_of_ne first _ _)

end Hart

private theorem riscvRegs_offsets : (riscvRegs.map Prod.snd).Nodup := by decide

private theorem riscvRegs_complete (r : Reg) : ∃ offset, (r, offset) ∈ riscvRegs := by
  have listed : r ∈ riscvRegs.map Prod.fst := by cases r <;> decide
  obtain ⟨⟨_, offset⟩, member, rfl⟩ := List.mem_map.mp listed
  exact ⟨offset, member⟩

private theorem offset_a0 : ∀ field ∈ riscvRegs, field.1 = .a0 → field.2 = 72 := by decide

private theorem offset_72 : ∀ field ∈ riscvRegs, field.2 = 72 → field.1 = .a0 := by decide

private theorem offset_t6 : ∀ field ∈ riscvRegs, field.1 = .t6 → field.2 = 240 := by decide

private theorem mem_dropLast : ∀ field ∈ riscvRegs, field.1 ≠ .t6 → field ∈ riscvRegs.dropLast := by decide

/-- Instructions that write no memory. -/
def Instr.quiet : Instr → Bool
  | .sd _ _ _ => false
  | _ => true

private theorem Hart.run_quiet (h : Hart) (code : List Instr) (quiet : ∀ i ∈ code, Instr.quiet i = true) :
    (h.run code).mem = h.mem := by
  induction code generalizing h with
  | nil => rfl
  | cons i rest ih =>
    rw [Hart.run_cons, ih _ fun j later => quiet j (List.mem_cons_of_mem _ later)]
    have first := quiet i List.mem_cons_self
    cases i with
    | sd rs offset base => cases first
    | _ => rfl

/-- The contents of the frame after the common part of the two entries and instructions that do not store. -/
theorem entry_frame (h : Hart) (csr : Csr) (code : List Instr) (quiet : ∀ i ∈ code, Instr.quiet i = true) :
    ∀ field ∈ riscvRegs, (h.run ([.csrrw .a0 csr .a0, .addi .t6 .a0 0] ++ storeAllRegisters ++
        ([.csrr .t0 csr, .sd .t0 72 .a0] ++ code))).mem (h.csrs csr + field.2) =
      if field.1 = .t6 then h.csrs csr else h.regs field.1 := by
  intro field member
  obtain ⟨start, named⟩ : ∃ start, h.run [.csrrw .a0 csr .a0, .addi .t6 .a0 0] = start := ⟨_, rfl⟩
  have base : start.regs .t6 = h.csrs csr := by
    rw [← named]
    simp [Hart.exec, Hart.setReg, Hart.setCsr]
  have frame : start.regs .a0 = h.csrs csr := by
    rw [← named]
    simp [Hart.exec, Hart.setReg, Hart.setCsr]
  have scratch : start.csrs csr = h.regs .a0 := by
    rw [← named]
    simp [Hart.exec, Hart.setReg, Hart.setCsr]
  have others : ∀ r, r ≠ .a0 → r ≠ .t6 → start.regs r = h.regs r := by
    intro r first last
    rw [← named]
    simp [Hart.exec, Hart.setReg, Hart.setCsr, first, last]
  obtain ⟨regs, csrs, stored, -⟩ := Hart.run_stores riscvRegs start riscvRegs_offsets
  simp only [Hart.run_append, named, Hart.run_quiet _ code quiet]
  change (((start.run (riscvRegs.map fun field => .sd field.1 field.2 .t6)).run
    [.csrr .t0 csr, .sd .t0 72 .a0]).mem _) = _
  have old := stored field member
  generalize start.run (riscvRegs.map fun field => .sd field.1 field.2 .t6) = mid at regs csrs old
  have patched : (mid.run [.csrr .t0 csr, .sd .t0 72 .a0]).mem = Function.update mid.mem (h.csrs csr + 72)
    (h.regs .a0) := by
    simp [Hart.exec, Hart.setReg, Hart.store, regs, csrs, frame, scratch]
  rw [patched]
  rw [base] at old
  by_cases first : field.1 = .a0
  · have offset : field.2 = 72 := offset_a0 field member first
    rw [offset, Function.update_self, first, if_neg (by decide)]
  · have offset : field.2 ≠ 72 := fun same => first (offset_72 field member same)
    rw [Function.update_of_ne fun same => offset (add_left_cancel same), old]
    split_ifs with last
    · rw [last, base]
    · exact others _ first last

/-- The registers after `restore_all_registers` are the contents of the frame. -/
theorem restoreAllRegisters_regs (h : Hart) :
    ∀ field ∈ riscvRegs, (h.run restoreAllRegisters).regs field.1 = h.mem (h.regs .t6 + field.2) := by
  intro field member
  have split : restoreAllRegisters = (riscvRegs.dropLast.map fun field => .ld field.1 field.2 .t6) ++
    [.ld .t6 240 .t6] := by decide
  obtain ⟨mem, loaded, kept⟩ := Hart.run_loads riscvRegs.dropLast h (by decide) (by decide)
  rw [split, Hart.run_append]
  generalize h.run (riscvRegs.dropLast.map fun field => .ld field.1 field.2 .t6) = mid at mem loaded kept
  have base : mid.regs .t6 = h.regs .t6 := kept .t6 (by decide)
  change Function.update mid.regs .t6 (mid.mem (mid.regs .t6 + 240)) field.1 = _
  by_cases last : field.1 = .t6
  · rw [last, Function.update_self, mem, base, offset_t6 field member last]
  · rw [Function.update_of_ne last]
    exact loaded field (mem_dropLast field member last)

/-- The frame still holds what it held. -/
def FrameKept (frame : Word) (h h' : Hart) : Prop :=
  ∀ field ∈ riscvRegs, h'.mem (frame + field.2) = h.mem (frame + field.2)

theorem FrameKept.refl (frame : Word) (h : Hart) : FrameKept frame h h := fun _ _ => rfl

theorem FrameKept.setReg (frame : Word) (h : Hart) (rd : Reg) (word : Word) :
    FrameKept frame h (h.setReg rd word) := fun _ _ => rfl

/-- All general registers are what they were. -/
def Restores (h h' : Hart) : Prop := ∀ r, h'.regs r = h.regs r

/-- The registers come back except for `t6`, which holds the address of the frame. -/
private theorem restores_iff {h exit : Hart} {frame : Word}
    (regs : ∀ field ∈ riscvRegs, exit.regs field.1 = if field.1 = .t6 then frame else h.regs field.1) :
    Restores h exit ↔ h.regs .t6 = frame := by
  constructor
  · intro all
    obtain ⟨offset, member⟩ := riscvRegs_complete .t6
    rw [← all .t6, regs _ member, if_pos rfl]
  · intro same r
    obtain ⟨offset, member⟩ := riscvRegs_complete r
    rw [regs _ member]
    split_ifs with last
    · rw [show r = .t6 from last, same]
    · rfl

/-- What the trapframe holds when the handler starts. -/
private theorem smodeTrapVector_frame (h : Hart) : ∀ field ∈ riscvRegs,
    (h.run smodeTrapVector).mem (h.csrs .sscratch + field.2) = if field.1 = .t6 then h.csrs .sscratch
    else h.regs field.1 :=
  entry_frame h .sscratch [.ld .sp 248 .a0, .ld .t0 256 .a0, .ld .t1 272 .a0, .csrw .satp .t1] (by decide)

/-- What the interrupt frame holds when the handler starts. -/
private theorem mtrapvecEntry_frame (h : Hart) (stack0 : Word) : ∀ field ∈ riscvRegs,
    (h.run (mtrapvecEntry stack0)).mem (h.csrs .mscratch + field.2) =
      if field.1 = .t6 then h.csrs .mscratch else h.regs field.1 :=
  entry_frame h .mscratch [.li .sp stack0, .li .a3 4096, .csrr .a4 .mhartid, .addi .a4 .a4 1,
    .mul .a3 .a3 .a4, .add .sp .sp .a3, .csrw .mscratch .a0] (by simp [Instr.quiet])

/-- `mscratch` points to the interrupt frame again when the handler starts. -/
private theorem mtrapvecEntry_mscratch (h : Hart) (stack0 : Word) :
    (h.run (mtrapvecEntry stack0)).csrs .mscratch = h.csrs .mscratch := by
  rw [mtrapvecEntry, Hart.run_append, Hart.run_append, storeAllRegisters]
  obtain ⟨regs, csrs, -, -⟩ := Hart.run_stores riscvRegs (h.run [.csrrw .a0 .mscratch .a0, .addi .t6 .a0 0])
    riscvRegs_offsets
  generalize (h.run [.csrrw .a0 .mscratch .a0, .addi .t6 .a0 0]).run _ = mid at regs csrs
  have frame : mid.regs .a0 = h.csrs .mscratch := by
    rw [regs]
    simp [Hart.exec, Hart.setReg, Hart.setCsr]
  simp [Hart.exec, Hart.setReg, Hart.setCsr, Hart.store, frame]

/-- A trap from user mode whose handler leaves the trapframe alone, and a machine trap whose handler
leaves the interrupt frame and `mscratch` alone, give every general register back exactly if `t6`
held the address of the frame before. -/
theorem trap_restores_iff (h : Hart) :
    (∀ h' : Hart, h'.regs .a0 = h.csrs .sscratch → FrameKept (h.csrs .sscratch) (h.run smodeTrapVector) h' →
      (Restores h (h'.run returnToUser) ↔ h.regs .t6 = h.csrs .sscratch)) ∧
    ∀ (stack0 : Word) (h' : Hart), h'.csrs .mscratch = (h.run (mtrapvecEntry stack0)).csrs .mscratch →
      FrameKept (h.csrs .mscratch) (h.run (mtrapvecEntry stack0)) h' →
      (Restores h (h'.run mtrapvecExit) ↔ h.regs .t6 = h.csrs .mscratch) := by
  constructor
  · intro h' argument kept
    apply restores_iff
    intro field member
    have base : (h'.run [.csrw .satp .a1, .csrw .sscratch .a0, .addi .t6 .a0 0]).regs .t6 =
      h.csrs .sscratch := by
      simp [Hart.exec, Hart.setReg, Hart.setCsr, argument]
    rw [returnToUser, Hart.run_append, restoreAllRegisters_regs _ field member, base,
      ← smodeTrapVector_frame h field member]
    exact kept field member
  · intro stack0 h' scratch kept
    apply restores_iff
    intro field member
    have base : (h'.run [.csrr .t6 .mscratch]).regs .t6 = h.csrs .mscratch := by
      simp [Hart.exec, Hart.setReg, scratch, mtrapvecEntry_mscratch]
    rw [mtrapvecExit, Hart.run_append, restoreAllRegisters_regs _ field member, base,
      ← mtrapvecEntry_frame h stack0 field member]
    exact kept field member

/-- A hart with its frames at `0x80020000`, a word in `t6`, and another one in each other register. -/
def spreadHart (t6 : Word) : Hart where
  regs r := if r = .t6 then t6 else BitVec.ofNat 64 (r.ctorIdx + 1)
  csrs _ := 0x80020000
  mem _ := 0

/-- With the address of the frame in `t6`, nothing is lost. -/
theorem trap_restores_spread :
    ∃ h h' h'' : Hart, h'.regs .a0 = h.csrs .sscratch ∧
    FrameKept (h.csrs .sscratch) (h.run smodeTrapVector) h' ∧
      FrameKept (h.csrs .mscratch) (h.run (mtrapvecEntry 0x80001000)) h'' ∧ Restores h (h'.run returnToUser) ∧
      Restores h (h''.run mtrapvecExit) := by
  obtain ⟨user, machine⟩ := trap_restores_iff (spreadHart 0x80020000)
  have entered := FrameKept.setReg ((spreadHart 0x80020000).csrs .sscratch)
    ((spreadHart 0x80020000).run smodeTrapVector) .a0
    ((spreadHart 0x80020000).csrs .sscratch)
  have interrupted := FrameKept.refl ((spreadHart 0x80020000).csrs .mscratch)
    ((spreadHart 0x80020000).run (mtrapvecEntry 0x80001000))
  have argument : (((spreadHart 0x80020000).run smodeTrapVector).setReg .a0
      ((spreadHart 0x80020000).csrs .sscratch)).regs .a0 =
      (spreadHart 0x80020000).csrs .sscratch := Hart.setReg_self _ _ _
  exact ⟨_, _, _, argument, entered, interrupted, (user _ argument entered).mpr rfl,
    (machine _ _ rfl interrupted).mpr rfl⟩

/-- The process whose `t6` was zero finds the address of its trapframe there. -/
theorem trap_loses_t6 : ∃ h h' : Hart, h'.regs .a0 = h.csrs .sscratch ∧
    FrameKept (h.csrs .sscratch) (h.run smodeTrapVector) h' ∧ ¬ Restores h (h'.run returnToUser) := by
  refine ⟨spreadHart 0, ((spreadHart 0).run smodeTrapVector).setReg .a0 0x80020000, rfl,
    FrameKept.setReg _ _ _ _, fun all => ?_⟩
  exact absurd (all .t6) (by decide)

end Pke.Proofs
