import Pke.Proofs.ForkCopies
import Pke.Proofs.PmmSupply

/-! # `do_fork` in runs of the system

In every state of a careful run, `do_fork` of the running process makes a copy up to the register `tp` exactly
if the process is `Forkable`; a process with a page of heap is not. The register `tp` is never copied.
-/

namespace Pke.Proofs

open Pke.Lib Pke.Model

variable {lay : Layout}

/-- `do_fork(current)` during a system call never makes a full copy of the caller, if the process
pool lies in the kernel image. Up to `tp` it makes a copy exactly if the caller is `Forkable`. -/
theorem fork_duplicates (pool : KERN_BASE ≤ lay.procs) {k₀ k k' : Kernel Pool} {ops : List Op}
    (boot : BootState lay k₀) (run : Run (Guarded (Careful lay) (Step pmmEnv lay)) k₀ ops k)
    (live : Live k k.current) {regs : Regs} {sepc child : ℕ} (careful : Careful lay k (.trap regs sepc .ecall))
    (call : doFork pmmEnv lay k.current (k.entered regs sepc) = .ok child k') :
    ¬ Duplicated k' k.current child ∧
      (Copied k' k.current child ↔ Forkable (k.entered regs sepc) k.current) := by
  obtain ⟨own, sane⟩ := careful_sane boot run
  obtain ⟨sound, _, hart⟩ := careful
  have saved := entered_saved k regs sepc
  have ok := sound.pool.entry hart (k.entered regs sepc) rfl rfl rfl
  have good : Good (pmmSupply lay) (k.entered regs sepc) own := saved.quiet.good (sound.good sane) ok
  have live₁ : Live (k.entered regs sepc) k.current := (saved.live _).mpr live
  obtain ⟨own', forked⟩ := (good.doFork live₁).of_ok call
  refine ⟨fun full => ?_, forked.forkable (good.procs _ live₁.1), forked.copied good.procs live₁.1⟩
  -- the parent trapped with the number of a hart in `tp`
  obtain ⟨_, same⟩ := forked.others k.current forked.apart
  have parent : (k'.procs k.current).frame.regs .tp = regs .tp := by
    rw [same, entered_tp]
  have equal := full.tp
  rw [forked.child_tp, parent, Layout.procAddr] at equal
  have low : regs .tp < NCPU := hart
  simp only [KERN_BASE, NCPU] at pool low
  omega

/-- A process that has just been started forks: its child is a copy up to `tp`, although not a full one. -/
theorem fork_duplicates_small :
    ∃ k child k', Run (Guarded (Careful smallLayout) (Step pmmEnv smallLayout)) smallKernel smallStart k ∧
      Live k k.current ∧ Careful smallLayout k (.trap (request SYS_user_fork 0) 0 .ecall) ∧
      doFork pmmEnv smallLayout k.current (k.entered (request SYS_user_fork 0) 0) = .ok child k' ∧
      Copied k' k.current child ∧ ¬ Duplicated k' k.current child := by
  have checked : (execute pmmEnv smallLayout smallStart smallKernel).any (fun k => decide (Live k k.current ∧
      (∀ i < ((k.entered (request SYS_user_fork 0) 0).procs k.current).totalMappedRegion,
        (((k.entered (request SYS_user_fork 0) 0).procs k.current).regions i).segType ≠ .DATA_SEGMENT) ∧
      (((k.entered (request SYS_user_fork 0) 0).procs k.current).regions 3).npages = 0 ∧
      ((k.entered (request SYS_user_fork 0) 0).procs k.current).userHeap.heapTop ≤
        ((k.entered (request SYS_user_fork 0) 0).procs k.current).userHeap.heapBottom) &&
      returned (fun _ _ => true) (doFork pmmEnv smallLayout k.current
        (k.entered (request SYS_user_fork 0) 0))) = true := by
    decide +kernel
  obtain ⟨k, run, check⟩ := run_of_check checked
  obtain ⟨start, ok⟩ := Bool.and_eq_true_iff.mp check
  obtain ⟨live, noData, noHeap, empty⟩ := of_decide_eq_true start
  obtain ⟨child, k', call, _⟩ := returned_eq_true ok
  obtain ⟨careful, own, good⟩ := calm_careful run (by decide) smallKernel_boot.good
  have here : Careful smallLayout k (.trap (request SYS_user_fork 0) 0 .ecall) :=
    ⟨good.sound, fun number => absurd number (by decide), Nat.one_pos⟩
  obtain ⟨never, copied⟩ := fork_duplicates (by decide) smallKernel_boot careful live here call
  exact ⟨k, child, k', careful, live, here, call,
    copied.mpr ⟨noData, noHeap, fun a low high => absurd (low.trans_lt high) (Nat.not_lt.mpr empty)⟩, never⟩

/-- The child of a process with one page of heap records no page of heap. -/
theorem fork_heap_small :
    ∃ k child k', BootState smallLayout smallKernel ∧
      Run (Guarded (Careful smallLayout) (Step pmmEnv smallLayout)) smallKernel
      (smallStart ++ [.trap (request SYS_user_allocate_page 0) 0 .ecall]) k ∧
      Live k k.current ∧
      doFork pmmEnv smallLayout k.current (k.entered (request SYS_user_fork 0) 0) = .ok child k' ∧
      ¬ Duplicated k' k.current child := by
  have checked : (execute pmmEnv smallLayout
      (smallStart ++ [.trap (request SYS_user_allocate_page 0) 0 .ecall]) smallKernel).any
      (fun k => decide (Live k k.current) &&
        returned (fun child k' => decide (3 < (k'.procs k.current).totalMappedRegion ∧
        ((k'.procs child).regions 3).npages ≠ ((k'.procs k.current).regions 3).npages))
      (doFork pmmEnv smallLayout k.current (k.entered (request SYS_user_fork 0) 0))) = true := by decide +kernel
  obtain ⟨k, run, check⟩ := run_of_check checked
  obtain ⟨live, ok⟩ := Bool.and_eq_true_iff.mp check
  obtain ⟨child, k', call, passed⟩ := returned_eq_true ok
  obtain ⟨small, different⟩ := of_decide_eq_true passed
  obtain ⟨careful, _⟩ := calm_careful run (by decide) smallKernel_boot.good
  exact ⟨k, child, k', smallKernel_boot, careful, of_decide_eq_true live, call,
    fun copy => different (copy.regions 3 small).2⟩

end Pke.Proofs
