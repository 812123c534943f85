import Pke.Proofs.Fork
import Pke.Model.Trap
import Pke.Lib.Run

/-! # Runs of the system

A run is a sequence of calls that return: processes are allocated and loaded, made ready, switched to in
any order, trap into the kernel with any registers, and store to pages they can write. `Saved` relates
states that differ in trapframes and in `tp` only, such as those before and after the entry of a trap.
`Served` is what a trap does between its entry and its return.
-/

namespace Pke.Proofs

open Pke.Lib Pke.Model

variable {σ : Type} {env : PageEnv σ} {trapSec : ℕ} {S : Supply env trapSec} {lay : Layout}

/-- The steps of a run. -/
inductive Op where
  | allocProcess
  | load (pid : ℕ) (file : HostFile)
  | ready (pid : ℕ)
  | switchTo (pid : ℕ)
  | trap (regs : Regs) (sepc : ℕ) (cause : Cause)
  | store (va index word : ℕ)

def perform (env : PageEnv σ) (lay : Layout) : Op → Exec (Kernel σ) Unit
  | .allocProcess => do
    let _ ← Model.allocProcess env lay
  | .load pid file => loadBincodeFromHostElf env pid file
  | .ready pid => insertToReadyQueue pid
  | .switchTo pid => Model.switchTo pid
  | .trap regs sepc cause => do
    modify fun k => k.entered regs sepc
    smodeTrapHandler env lay cause
  | .store va index word => modify fun k => k.setWord (frameOf (pteOf k k.current va)) index word

/-- When a step can be taken: programs are loaded into processes that have not run, and a trap or a store
comes from a process that runs. -/
def Enabled (k : Kernel σ) : Op → Prop
  | .allocProcess => True
  | .load pid _ => HasSpace k pid ∧ (k.procs pid).status = .FREE
  | .ready pid => HasSpace k pid
  | .switchTo pid => Live k pid
  | .trap _ _ _ => Live k k.current
  | .store va index _ => Live k k.current ∧ UserLeaf (pteOf k k.current va) ∧
    has (pteOf k k.current va) PTE_W = true ∧ index < 512

instance (k : Kernel σ) (pid : ℕ) : Decidable (HasSpace k pid) := inferInstanceAs (Decidable (_ ∧ _ ∧ _))

instance (k : Kernel σ) (pid : ℕ) : Decidable (Live k pid) := inferInstanceAs (Decidable (_ ∧ _))

instance (pte : ℕ) : Decidable (UserLeaf pte) := inferInstanceAs (Decidable (_ ∧ _))

instance (k : Kernel σ) : (op : Op) → Decidable (Enabled k op)
  | .allocProcess => inferInstanceAs (Decidable True)
  | .load _ _ => inferInstanceAs (Decidable (_ ∧ _))
  | .ready pid => inferInstanceAs (Decidable (HasSpace k pid))
  | .switchTo pid => inferInstanceAs (Decidable (Live k pid))
  | .trap _ _ _ => inferInstanceAs (Decidable (Live k k.current))
  | .store _ _ _ => inferInstanceAs (Decidable (_ ∧ _ ∧ _ ∧ _))

/-- A step that is taken and returns. -/
def Step (env : PageEnv σ) (lay : Layout) (k : Kernel σ) (op : Op) (k' : Kernel σ) : Prop :=
  Enabled k op ∧ perform env lay op k = .ok () k'

/-- Run the steps one after the other. -/
def execute (env : PageEnv σ) (lay : Layout) : List Op → Kernel σ → Option (Kernel σ)
  | [], k => some k
  | op :: ops, k =>
    if Enabled k op then
      match perform env lay op k with
      | .ok _ k' => execute env lay ops k'
      | .error _ _ => none
    else none

private theorem execute_run {ops : List Op} {k k' : Kernel σ} (result : execute env lay ops k = some k') :
    Run (Step env lay) k ops k' := by
  induction ops generalizing k with
  | nil =>
    obtain rfl := Option.some.inj result
    exact .nil k
  | cons op ops ih =>
    rw [execute] at result
    split_ifs at result with enabled
    split at result
    · rename_i mid call
      exact .cons ⟨enabled, call⟩ (ih result)
    · cases result

/-- A run found by evaluation, with what was checked of its last state. -/
theorem run_of_check {ops : List Op} {k : Kernel σ} {check : Kernel σ → Bool}
    (checked : (execute env lay ops k).any check = true) :
    ∃ k', Run (Step env lay) k ops k' ∧ check k' = true := by
  cases result : execute env lay ops k with
  | none =>
    rw [result] at checked
    cases checked
  | some k' =>
    rw [result] at checked
    exact ⟨k', execute_run result, checked⟩

/-- The registers of a system call. -/
def request (number argument : ℕ) : Regs
  | .a0 => number
  | .a1 => argument
  | _ => 0

/-- Page tables and allocator are the same, and process structures changed in harmless ways. -/
structure Quiet (k k' : Kernel σ) : Prop where
  mem : k'.mem = k.mem
  pool : k'.pool = k.pool
  trace : k'.trace = k.trace
  procs : ∀ pid, Harmless (k.procs pid) (k'.procs pid)

namespace Quiet

variable {k k' : Kernel σ} {own : Owner}

theorem hasSpace (quiet : Quiet k k') {pid : ℕ} (inside : HasSpace k' pid) : HasSpace k pid :=
  ⟨inside.1, (quiet.procs pid).pagetable ▸ inside.2.1,
    fun zombie => inside.2.2 ((quiet.procs pid).zombie zombie)⟩

theorem pteOf (quiet : Quiet k k') (pid va : ℕ) : pteOf k' pid va = Proofs.pteOf k pid va := by
  rw [Proofs.pteOf, Proofs.pteOf, rootOf, rootOf, quiet.mem, (quiet.procs pid).pagetable]

theorem mapped (quiet : Quiet k k') {f : ℕ} (mapped : Mapped k' f) : Mapped k f := by
  obtain ⟨pid, inside, va, valid, frame⟩ := mapped
  rw [quiet.pteOf] at valid frame
  exact ⟨pid, quiet.hasSpace inside, va, valid, frame⟩

theorem sane (quiet : Quiet k k') (sane : Sane trapSec k own) : Sane trapSec k' own := by
  refine ⟨sane.shape.restrict quiet.mem (fun f taken => quiet.trace ▸ taken) fun pid inside => ?_,
    fun pid inside => ?_⟩
  · exact ⟨quiet.hasSpace inside, (quiet.procs pid).pagetable⟩
  · obtain ⟨_, _, free, regions, total, heap⟩ := quiet.procs pid
    rw [show Proofs.pteOf k' pid = Proofs.pteOf k pid from funext (quiet.pteOf pid)]
    exact (sane.procs pid (quiet.hasSpace inside)).congr regions total heap free fun _ => .refl _

theorem good (quiet : Quiet k k') (good : Good S k own) (ok : S.Ok k') : Good S k' own := by
  obtain ⟨shape, procs⟩ := quiet.sane good.sane
  refine ⟨⟨shape, ok, fun f mapped => ?_⟩, procs⟩
  rw [quiet.trace]
  exact good.space.kept f (quiet.mapped mapped)

theorem exclusive (quiet : Quiet k k') (exclusive : Exclusive k) : Exclusive k' :=
  exclusive.congr fun pid va inside _ => ⟨quiet.hasSpace inside, quiet.pteOf pid va⟩

end Quiet

/-- The states differ in trapframes, in `tp` and in who runs. -/
structure Saved (k k' : Kernel σ) : Prop where
  mem : k'.mem = k.mem
  pool : k'.pool = k.pool
  trace : k'.trace = k.trace
  procs : ∀ i, ∃ frame, k'.procs i = { k.procs i with frame := frame }

namespace Saved

variable {k k' k'' : Kernel σ}

theorem refl (k : Kernel σ) : Saved k k := ⟨rfl, rfl, rfl, fun i => ⟨(k.procs i).frame, rfl⟩⟩

theorem setProc (saved : Saved k k') (i : ℕ) (change : Process → Trapframe) :
    Saved k (k'.setProc i fun p => { p with frame := change p }) := by
  refine ⟨saved.mem, saved.pool, saved.trace, fun j => ?_⟩
  by_cases here : j = i
  · subst here
    obtain ⟨_, same⟩ := saved.procs j
    rw [Kernel.setProc_procs_self]
    exact ⟨_, by rw [same]⟩
  · rw [Kernel.setProc_procs_of_ne _ _ _ here]
    exact saved.procs j

theorem quiet (saved : Saved k k') : Quiet k k' := by
  refine ⟨saved.mem, saved.pool, saved.trace, fun pid => ?_⟩
  obtain ⟨_, same⟩ := saved.procs pid
  rw [same]
  exact ⟨rfl, id, id, rfl, rfl, rfl⟩

theorem hasSpace (saved : Saved k k') (pid : ℕ) : HasSpace k' pid ↔ HasSpace k pid := by
  obtain ⟨_, same⟩ := saved.procs pid
  rw [HasSpace, HasSpace, same]

theorem live (saved : Saved k k') (pid : ℕ) : Live k' pid ↔ Live k pid := by
  obtain ⟨_, same⟩ := saved.procs pid
  rw [Live, Live, saved.hasSpace, same]

end Saved

theorem entered_saved (k : Kernel σ) (regs : Regs) (sepc : ℕ) : Saved k (k.entered regs sepc) := by
  obtain ⟨mem, pool, trace, procs⟩ := (Saved.refl k).setProc k.current fun p =>
    { p.frame with regs := Function.update regs .t6 (k.procs k.current).trapframe, epc := sepc }
  exact ⟨mem, pool, trace, procs⟩

/-- The handler saves the register `tp` of the running process. -/
theorem entered_tp (k : Kernel σ) (regs : Regs) (sepc : ℕ) :
    ((k.entered regs sepc).procs k.current).frame.regs .tp = regs .tp := by
  simp [Kernel.entered, Kernel.setFrame, Kernel.setProc]

/-- Inserting a process that is not a `ZOMBIE` into the ready queue. -/
theorem Queued.quiet {proc : ℕ} {k k' : Kernel σ} (queued : Queued proc k k') (inside : HasSpace k proc) :
    Quiet k k' := by
  refine ⟨queued.mem, queued.pool, queued.trace, fun pid => ?_⟩
  obtain ⟨next, same | ⟨rfl, same⟩⟩ := queued.procs pid
  · rw [same]
    exact ⟨rfl, id, id, rfl, rfl, rfl⟩
  · rw [same]
    exact ⟨rfl, fun zombie => absurd zombie inside.2.2, fun free => ProcStatus.noConfusion free, rfl, rfl, rfl⟩

theorem freeProcess_quiet (k : Kernel σ)
    (i : ℕ) : Quiet k (k.setProc i fun p => { p with status := .ZOMBIE }) := by
  refine ⟨rfl, rfl, rfl, fun pid => ?_⟩
  by_cases here : pid = i
  · subst here
    rw [Kernel.setProc_procs_self]
    exact ⟨rfl, fun _ => rfl, fun free => ProcStatus.noConfusion free, rfl, rfl, rfl⟩
  · rw [Kernel.setProc_procs_of_ne _ _ _ here]
    exact ⟨rfl, id, id, rfl, rfl, rfl⟩

/-- What a trap does after its entry: one of the calls that change the state, or nothing. -/
inductive Served (env : PageEnv σ) (lay : Layout) (regs : Regs) : Cause → Kernel σ → Kernel σ → Prop
  | allocatePage {k k' : Kernel σ} {va : ℕ} (number : regs .a0 = SYS_user_allocate_page)
      (call : sysUserAllocatePage env k = .ok va k') : Served env lay regs .ecall k k'
  | freePage {k k' : Kernel σ} (number : regs .a0 = SYS_user_free_page)
      (call : sysUserFreePage env (regs .a1) k = .ok () k') : Served env lay regs .ecall k k'
  | fork {k k' : Kernel σ} {child : ℕ} (number : regs .a0 = SYS_user_fork)
      (call : doFork env lay k.current k = .ok child k') : Served env lay regs .ecall k k'
  | exit {k : Kernel σ} (number : regs .a0 = SYS_user_exit) :
      Served env lay regs .ecall k (k.setProc k.current fun p => { p with status := .ZOMBIE })
  | fault {k k' : Kernel σ} {stval : ℕ}
    (call : handleUserPageFault env CAUSE_STORE_PAGE_FAULT stval k = .ok () k') :
      Served env lay regs (.storePageFault stval) k k'
  | nothing {cause : Cause} {k : Kernel σ} : Served env lay regs cause k k

/-- A walk that allocates nothing changes nothing. -/
theorem lookUp_same {α : Type} {dir va : ℕ} {k : Kernel σ} {rest : Option Slot → Exec (Kernel σ) α}
    (same : ∀ slot?, Yields (rest slot?) k fun _ k' => k' = k) :
    Yields (pageWalk env dir va 0 false >>= rest) k fun _ k' => k' = k := by
  have walk := pageWalk_read env dir va k
  by_cases range : 0 < va ∧ va < MAXVA
  · rw [if_pos range] at walk
    exact Ensures.step walk (same _)
  · rw [if_neg range] at walk
    exact Ensures.fails walk trivial

/-- The address that `user_va_to_pa` computes for the running process. -/
def userPa (k : Kernel σ) (va : ℕ) : ℕ := PTE2PA (pteOf k k.current va) ||| va % PGSIZE

/-- `user_va_to_pa` for the running process. -/
private theorem userVaToPa_eq (env : PageEnv σ) (k : Kernel σ) (va : ℕ) :
    userVaToPa env (k.procs k.current).pagetable va k =
      if 0 < va ∧ va < MAXVA then
        .ok (if has (pteOf k k.current va) PTE_V = true ∧ userPa k va ≠ 0 then some (userPa k va) else none) k
      else .error (.kassertFailed "va > 0 && va < MAXVA") k := by
  have walk := pageWalk_read env (k.procs k.current).pagetable va k
  rw [userVaToPa]
  by_cases inside : 0 < va ∧ va < MAXVA
  · rw [if_pos inside] at walk ⊢
    rw [bind_of_ok walk]
    cases found : leafTable k.mem ((k.procs k.current).pagetable / PGSIZE) va with
    | none =>
      have entry : pteOf k k.current va = 0 := leafTable_none found
      rw [entry, not_has_zero, if_neg (by simp)]
      rfl
    | some t =>
      have entry : pteAt k (t, PX 0 va) = pteOf k k.current va := leafTable_some found
      simp only [Option.map_some, bind_of_ok (get_apply k), entry]
      by_cases valid : has (pteOf k k.current va) PTE_V = true
      · by_cases null : userPa k va = 0
        · simp [valid, null, show PTE2PA (pteOf k k.current va) ||| va % PGSIZE = 0 from null]
        · simp [valid, show ¬ PTE2PA (pteOf k k.current va) ||| va % PGSIZE = 0 from null, userPa]
      · simp [valid]
  · rw [if_neg inside] at walk ⊢
    rw [bind_of_error walk]

/-- What `sys_user_print` prints, by cases on the address, its translation and the text. -/
theorem sysUserPrintText_eq (env : PageEnv σ) (args out : ℕ → ℕ) (k : Kernel σ) (va : ℕ) :
    sysUserPrintText env args out va k =
      if 0 < va ∧ va < MAXVA then
        if has (pteOf k k.current va) PTE_V = true ∧ userPa k va ≠ 0 then
          match sprint (physByte k.mem) args STRING_BOUND out (userPa k va) with
          | none => .error .accessFault k
          | some printed => if printed.reads.all inRam then .ok printed k else .error .accessFault k
        else .error .nullDereference k
      else .error (.kassertFailed "va > 0 && va < MAXVA") k := by
  have walk := userVaToPa_eq env k va
  rw [sysUserPrintText, bind_of_ok (get_apply k), bind_of_ok (get_apply k)]
  by_cases range : 0 < va ∧ va < MAXVA
  · rw [if_pos range] at walk ⊢
    rw [bind_of_ok walk]
    by_cases found : has (pteOf k k.current va) PTE_V = true ∧ userPa k va ≠ 0
    · simp only [if_pos found]
      rw [bind_of_ok (get_apply k)]
      cases sprint (physByte k.mem) args STRING_BOUND out (userPa k va) with
      | none => rfl
      | some printed =>
        dsimp only
        split_ifs
        · rfl
        · rfl
    · simp only [if_neg found]
      rfl
  · rw [if_neg range] at walk ⊢
    rw [bind_of_error walk]

private theorem sysUserPrint_same (k : Kernel σ)
    (buf : ℕ) : Yields (sysUserPrint env buf) k fun _ k' => k' = k := by
  have text : Yields (sysUserPrintText env k.varargs (fun _ => 0) buf) k fun _ k' => k' = k := by
    rw [Yields, Ensures, sysUserPrintText_eq]
    split_ifs
    · cases sprint (physByte k.mem) k.varargs STRING_BOUND (fun _ => 0) (userPa k buf) with
      | none => trivial
      | some printed =>
        dsimp only
        split_ifs
        · rfl
        · trivial
    · trivial
    · trivial
  exact Ensures.step (get_apply k) (Ensures.bind text fun _ _ same => same)

private theorem sysUserPrintpa_same (k : Kernel σ)
    (va : ℕ) : Yields (sysUserPrintpa env va) k fun _ k' => k' = k := by
  rw [sysUserPrintpa]
  refine Ensures.step (get_apply k) ?_
  refine Ensures.step (get_apply k) ?_
  refine lookUp_same fun slot? => ?_
  cases slot? with
  | none => exact rfl
  | some slot =>
    refine Ensures.step (get_apply k) ?_
    dsimp only
    split_ifs
    · exact rfl
    · exact rfl

theorem doSyscall_served {k k' : Kernel σ} {regs : Regs} {result : ℕ}
    (call : doSyscall env lay (regs .a0) (regs .a1) k = .ok result k') : Served env lay regs .ecall k k' := by
  rw [doSyscall] at call
  split_ifs at call with print exit allocate free fork yield semaphore printpa
  · obtain rfl := (sysUserPrint_same k _).of_ok call
    exact .nothing
  · obtain ⟨-, rfl⟩ := EStateM.Result.ok.inj call
    exact .exit exit
  · exact .allocatePage allocate call
  · obtain ⟨_, mid, inner, rest⟩ := bind_eq_ok.mp call
    obtain ⟨-, rfl⟩ := EStateM.Result.ok.inj rest
    exact .freePage free inner
  · rw [bind_of_ok (get_apply k)] at call
    obtain ⟨child, mid, inner, rest⟩ := bind_eq_ok.mp call
    obtain ⟨-, rfl⟩ := EStateM.Result.ok.inj rest
    exact .fork fork inner
  · cases call
  · obtain ⟨-, rfl⟩ := EStateM.Result.ok.inj call
    exact .nothing
  · obtain rfl := (sysUserPrintpa_same k _).of_ok call
    exact .nothing
  · cases call

/-- A trap that returns: the registers are saved, the cause is served, and the result is stored. -/
theorem trap_served {k k' : Kernel σ} {regs : Regs} {sepc : ℕ} {cause : Cause}
    (call : smodeTrapHandler env lay cause (k.entered regs sepc) = .ok () k') :
    ∃ k₁ k₂, Saved k k₁ ∧ k₁.current = k.current ∧ k₁.tp = regs .tp ∧ Served env lay regs cause k₁ k₂ ∧
      Saved k₂ k' ∧ k'.current = k₂.current ∧ k'.tp = k₂.tp := by
  have entry := entered_saved k regs sepc
  cases cause with
  | ecall =>
    rw [smodeTrapHandler, handleSyscall, bind_of_ok (get_apply _), bind_of_ok (modify_apply _ _),
      bind_of_ok (get_apply _)] at call
    have inner := entry.setProc k.current fun p => { p.frame with epc := (p.frame.epc + 4) % WORD }
    have saved : (((k.entered regs sepc).setFrame fun frame =>
      { frame with epc := (frame.epc + 4) % WORD }).procs
        (k.entered regs sepc).current).frame.regs = Function.update regs .t6 (k.procs k.current).trapframe := by
      simp [Kernel.setFrame, Kernel.entered, Kernel.setProc]
    have number : Function.update regs .t6 (k.procs k.current).trapframe .a0 = regs .a0 := rfl
    have argument : Function.update regs .t6 (k.procs k.current).trapframe .a1 = regs .a1 := rfl
    simp only [saved, number, argument] at call
    obtain ⟨result, k₂, served, rest⟩ := bind_eq_ok.mp call
    obtain ⟨-, rfl⟩ := EStateM.Result.ok.inj rest
    exact ⟨_, k₂, inner, rfl, rfl, doSyscall_served served, (Saved.refl k₂).setProc _ _, rfl, rfl⟩
  | timer => cases call
  | storePageFault stval => exact ⟨_, k', entry, rfl, rfl, .fault call, .refl k', rfl, rfl⟩
  | loadPageFault stval =>
    rw [smodeTrapHandler, handleUserPageFault, if_neg (by decide)] at call
    obtain ⟨-, rfl⟩ := EStateM.Result.ok.inj call
    exact ⟨_, _, entry, rfl, rfl, .nothing, .refl _, rfl, rfl⟩
  | other => cases call

/-- A file that `elf_load` can place: its segments start on page boundaries, and the region table
has a slot for each program header. -/
def Loadable (k : Kernel σ) (pid : ℕ) (file : HostFile) : Prop :=
  ∀ ehdr, elfInit file = .ok ehdr → AlignedSegments file ehdr ∧
  (k.procs pid).totalMappedRegion + ehdr.phnum ≤ REGION_SLOTS

/-- The arguments under which a step keeps the invariant of the processes. -/
def Safe (k : Kernel σ) : Op → Prop
  | .load pid file => Loadable k pid file
  | .trap regs _ .ecall => regs .a0 = SYS_user_free_page → FreeOk (k.procs k.current).userHeap (regs .a1)
  | _ => True

/-- The allocator is still intact after the entry of a trap. -/
def EntryOk (S : Supply env trapSec) (k : Kernel σ) : Op → Prop
  | .trap regs _ _ => ∀ k₁ : Kernel σ, k₁.pool = k.pool → k₁.trace = k.trace → k₁.tp = regs .tp → S.Ok k₁
  | _ => True

/-- The running process has no code region, if the step is a `fork`. -/
def Codeless (k : Kernel σ) : Op → Prop
  | .trap regs _ .ecall => regs .a0 = SYS_user_fork → ∀ i, 4 ≤ i → i < (k.procs k.current).totalMappedRegion →
      ((k.procs k.current).regions i).segType ≠ .CODE_SEGMENT
  | _ => True

/-- What a step does to intact address spaces. -/
inductive Outcome (S : Supply env trapSec) (k : Kernel σ) (own : Owner) : Op → Kernel σ → Prop
  | good {op : Op} {k' : Kernel σ} (own' : Owner) (good : Good S k' own')
      (exclusive : Codeless k op → Exclusive k → Exclusive k') : Outcome S k own op k'
  | freed {regs : Regs} {sepc : ℕ} {k₁ k₂ k' : Kernel σ} (number : regs .a0 = SYS_user_free_page)
      (before : Saved k k₁) (current : k₁.current = k.current) (good : Good S k₁ own)
      (sane : Sane trapSec k₂ own) (effect : Freed env k₁ (regs .a1) k₂) (after : Saved k₂ k')
      (tp : k'.tp = k₂.tp) :
      Outcome S k own (.trap regs sepc .ecall) k'
  | fault {regs : Regs} {sepc stval : ℕ} {k₁ k₂ k' : Kernel σ} (before : Saved k k₁)
      (current : k₁.current = k.current) (good : Good S k₁ own) (inside : HasSpace k₁ k₁.current)
      (valid : has (pteOf k₁ k₁.current stval) PTE_V = true)
      (effect : Resolved S k₁ own stval k₂) (after : Saved k₂ k') (tp : k'.tp = k₂.tp) :
      Outcome S k own (.trap regs sepc (.storePageFault stval)) k'

section

variable {S : Supply env (lay.trapSecStart / PGSIZE)} {k k' : Kernel σ} {own : Owner} {op : Op}

/-- What holds of a step that is followed by storing the result. -/
private theorem Outcome.saved {k₂ : Kernel σ} {own₂ : Owner} (good : Good S k₂ own₂)
    (exclusive : Codeless k op → Exclusive k → Exclusive k₂) (after : Saved k₂ k') (tp : k'.tp = k₂.tp) :
    Outcome S k own op k' :=
  .good own₂ (after.quiet.good good (S.stable after.pool after.trace tp good.space.ok)) fun codeless old =>
    after.quiet.exclusive (exclusive codeless old)

/-- The outcome of a trap. -/
private theorem Good.trap_outcome (good : Good S k own) (live : Live k k.current) {regs : Regs} {sepc : ℕ}
    {cause : Cause} (call : smodeTrapHandler env lay cause (k.entered regs sepc) = .ok () k')
    (safe : Safe k (.trap regs sepc cause)) (entry : EntryOk S k (.trap regs sepc cause)) :
    Outcome S k own (.trap regs sepc cause) k' := by
  obtain ⟨k₁, k₂, before, current, tp₁, served, after, _, tp⟩ := trap_served call
  have good₁ : Good S k₁ own := before.quiet.good good (entry k₁ before.pool before.trace tp₁)
  have live₁ : Live k₁ k₁.current := by rwa [current, before.live]
  have exclusive₁ := before.quiet.exclusive
  obtain ⟨frame, same⟩ := before.procs k.current
  cases served with
  | allocatePage number inner =>
    obtain ⟨own₂, good₂, exclusive₂, _⟩ := (good₁.sysUserAllocatePage live₁).of_ok inner
    exact .saved good₂ (fun _ old => exclusive₂ (exclusive₁ old)) after tp
  | freePage number inner =>
    have free : FreeOk (k₁.procs k₁.current).userHeap (regs .a1) := by
      rw [current, same]
      exact safe number
    obtain ⟨sane, effect⟩ := (good₁.sane.sysUserFreePage live₁ free).of_ok inner
    exact .freed number before current good₁ sane effect after tp
  | fork number inner =>
    obtain ⟨own₂, forked⟩ := (good₁.doFork live₁).of_ok inner
    refine .saved (forked.good good₁.procs live₁.1) (fun codeless old => ?_) after tp
    refine forked.exclusive (exclusive₁ old) good₁.procs live₁.1 ?_
    rw [current, same]
    exact codeless number
  | exit number =>
    have quiet := freeProcess_quiet k₁ k₁.current
    exact .saved (quiet.good good₁ (S.stable (k := k₁) rfl rfl rfl good₁.space.ok))
      (fun _ old => quiet.exclusive (exclusive₁ old)) after tp
  | fault inner =>
    obtain ⟨valid, _, effect⟩ := (good₁.space.handleUserPageFault live₁.1 _).of_ok inner
    exact .fault before current good₁ live₁.1 valid effect after tp
  | nothing => exact .saved good₁ (fun _ old => exclusive₁ old) after tp

/-- The outcome of a step. -/
theorem Good.outcome (good : Good S k own) (step : Step env lay k op k') (safe : Safe k op)
    (entry : EntryOk S k op) :
    Outcome S k own op k' := by
  obtain ⟨enabled, call⟩ := step
  cases op with
  | allocProcess =>
    obtain ⟨i, mid, inner, rest⟩ := bind_eq_ok.mp call
    obtain ⟨-, rfl⟩ := EStateM.Result.ok.inj rest
    obtain ⟨own', spawned⟩ := good.space.allocProcess.of_ok inner
    exact .good own' (spawned.good good) fun _ => spawned.exclusive
  | load pid file =>
    obtain ⟨own', good', exclusive⟩ := (good.load enabled.1 enabled.2 safe).of_ok call
    exact .good own' good' fun _ => exclusive
  | ready pid =>
    have queued := (insertToReadyQueue_queued pid k).of_ok call
    have quiet := queued.quiet enabled
    exact .good own (quiet.good good (S.stable queued.pool queued.trace queued.tp good.space.ok)) fun _ =>
      quiet.exclusive
  | switchTo pid =>
    obtain ⟨-, rfl⟩ := EStateM.Result.ok.inj call
    exact .saved good (fun _ old => old) ((Saved.mk rfl rfl rfl fun i => ⟨(k.procs i).frame, rfl⟩ :
      Saved k { k with current := pid }).setProc pid _) rfl
  | trap regs sepc cause => exact good.trap_outcome enabled call safe entry
  | store va index word =>
    obtain ⟨-, rfl⟩ := EStateM.Result.ok.inj call
    obtain ⟨live, leaf, _⟩ := enabled
    have free := (good.space.leaves _ live.1 va leaf.1).1
    have only : Only S (fun _ => False) k own (k.setWord (frameOf (pteOf k k.current va)) index word) own :=
      good.space.onlySetPage free _
    refine .good own ⟨only.space, only.procsOk good.procs fun _ none => none.elim⟩ fun _ old => ?_
    exact old.congr fun pid va' inside _ => ⟨inside, only.ptes pid id inside va'⟩

/-- A resolved fault keeps the invariant of the processes. -/
theorem Resolved.sane {va : ℕ} (effect : Resolved S k own va k') (good : Good S k own)
    (inside : HasSpace k k.current) (valid : has (pteOf k k.current va) PTE_V = true) :
    Sane (lay.trapSecStart / PGSIZE) k' own := by
  cases effect with
  | alone _ replaced space => exact ⟨space.toShape, replaced.procsOk good.procs (unshared_access _)⟩
  | copy mid f pool _ _ replaced space _ result =>
    subst result
    obtain ⟨data, small⟩ := good.space.leaves _ inside va valid
    refine ⟨space.toShape.gave ?_ pool, replaced.procsOk good.procs (copied_access _ _)⟩
    rw [PTE2PA_page small]
    exact data

/-- Every outcome is sane. -/
theorem Outcome.sane (outcome : Outcome S k own op k') : ∃ own', Sane (lay.trapSecStart / PGSIZE) k' own' := by
  cases outcome with
  | good own' good' _ => exact ⟨own', good'.sane⟩
  | freed _ _ _ _ sane _ after _ => exact ⟨own, after.quiet.sane sane⟩
  | fault _ _ good inside valid effect after _ => exact ⟨own, after.quiet.sane (effect.sane good inside valid)⟩

end

/-- Without address spaces there is nothing to keep intact. -/
theorem reset_sane {k : Kernel σ} (trapSec : ℕ)
    (procs : ∀ i < NPROC, k.procs i = { zeroProcess with pid := i }) :
    Sane trapSec k fun _ => none := by
  have none : ∀ pid, ¬ HasSpace k pid := fun pid inside => inside.2.1 (by rw [procs pid inside.1]; rfl)
  refine ⟨⟨⟨?_, ?_⟩, rfl, ?_, ?_, ?_, ?_⟩, fun pid inside => absurd inside (none pid)⟩
  · exact fun t r p named => absurd named (by simp)
  · exact fun t r p named => absurd named (by simp)
  · exact fun f named => absurd rfl named
  · exact fun pid inside => absurd inside (none pid)
  · exact fun pid _ inside => absurd inside (none pid)
  · exact fun pid inside => absurd inside (none pid)

end Pke.Proofs
