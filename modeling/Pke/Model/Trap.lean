import Pke.Model.Kernel
import Pke.Model.Pmm
import Pke.Model.Printf

/-! # Traps and system calls

`smode_trap_vector` (the part that concerns the state), `smode_trap_handler` of `strap.c`,
`do_syscall` of `syscall.c` and `switch_to`. The text that the print calls write is not part of the
state. `pmmEnv` connects the rest of the kernel to the allocator of `pmm.c`, with a share count for
each page: one after `alloc_page`, one more after each `get_page`.
-/

namespace Pke.Model

variable {σ : Type}

def SYS_user_base : ℕ := 64
def SYS_user_print : ℕ := SYS_user_base + 0
def SYS_user_exit : ℕ := SYS_user_base + 1
def SYS_user_allocate_page : ℕ := SYS_user_base + 2
def SYS_user_free_page : ℕ := SYS_user_base + 3
def SYS_user_fork : ℕ := SYS_user_base + 4
def SYS_user_yield : ℕ := SYS_user_base + 5
def SYS_user_sem_new : ℕ := SYS_user_base + 10
def SYS_user_sem_P : ℕ := SYS_user_base + 11
def SYS_user_sem_V : ℕ := SYS_user_base + 12
def SYS_user_printpa : ℕ := SYS_user_base + 13

/-- `sys_user_exit` up to the call of `schedule`. -/
def sysUserExit : Exec (Kernel σ) ℕ := do
  freeProcess (← get).current
  return 0

def sysUserPrintpa (env : PageEnv σ) (va : ℕ) : Exec (Kernel σ) ℕ := do
  match ← pageWalk env ((← get).procs (← get).current).pagetable va 0 false with
  | none => return 0
  | some slot =>
    let pte := pteAt (← get) slot
    if !has pte PTE_V then return 0
    return (PTE2PA pte + va % PGSIZE) % WORD

/-- `do_syscall`; none of the calls reads an argument after `a1`. -/
def doSyscall (env : PageEnv σ) (lay : Layout) (a0 a1 : ℕ) : Exec (Kernel σ) ℕ :=
  if a0 = SYS_user_print then sysUserPrint env a1
  else if a0 = SYS_user_exit then sysUserExit
  else if a0 = SYS_user_allocate_page then sysUserAllocatePage env
  else if a0 = SYS_user_free_page then do
    sysUserFreePage env a1
    return 0
  else if a0 = SYS_user_fork then do
    let child ← doFork env lay (← get).current
    return ((← get).procs child).pid
  else if a0 = SYS_user_yield then throw (.panic "You need to implement the yield syscall in lab3_2.\n")
  else if a0 = SYS_user_sem_new || a0 = SYS_user_sem_P || a0 = SYS_user_sem_V then return 0
  else if a0 = SYS_user_printpa then sysUserPrintpa env a1
  else throw (.panic "Unknown syscall %ld \n")

namespace Kernel

/-- Change the trapframe of the running process. -/
def setFrame (k : Kernel σ) (change : Trapframe → Trapframe) : Kernel σ :=
  k.setProc k.current fun p => { p with frame := change p.frame }

/-- The state in which `smode_trap_handler` decides on the cause: the registers of the user and `sepc` are
in the trapframe. The vector stores through `t6`, which holds the address of the trapframe by then; it
loads `sp`, `t0` and `t1`, and leaves `tp` as the user set it. -/
def entered (k : Kernel σ) (regs : Regs) (sepc : ℕ) : Kernel σ :=
  { k.setFrame fun frame =>
      { frame with regs := Function.update regs .t6 (k.procs k.current).trapframe, epc := sepc } with
    tp := regs .tp }

end Kernel

/-- `handle_syscall` for the running process. -/
def handleSyscall (env : PageEnv σ) (lay : Layout) : Exec (Kernel σ) Unit := do
  let current := (← get).current
  modify fun k => k.setFrame fun frame => { frame with epc := (frame.epc + 4) % WORD }
  let regs := ((← get).procs current).frame.regs
  let result ← doSyscall env lay (regs .a0) (regs .a1)
  modify fun k => k.setProc current fun p =>
    { p with frame := { p.frame with regs := Function.update p.frame.regs .a0 result } }

/-- The causes of a trap from user mode, with `stval` for a page fault. -/
inductive Cause where
  | ecall
  | timer
  | storePageFault (stval : ℕ)
  | loadPageFault (stval : ℕ)
  | other
deriving DecidableEq, Repr

/-- `smode_trap_handler` without the return to user mode. -/
def smodeTrapHandler (env : PageEnv σ) (lay : Layout) : Cause → Exec (Kernel σ) Unit
  | .ecall => handleSyscall env lay
  | .timer => throw (.panic "lab1_3: increase g_ticks by one, and clear SIP field in sip register.\n")
  | .storePageFault stval => handleUserPageFault env CAUSE_STORE_PAGE_FAULT stval
  | .loadPageFault stval => handleUserPageFault env CAUSE_LOAD_PAGE_FAULT stval
  | .other => throw (.panic "unexpected exception happened.\n")

/-- `switch_to`. Of the kernel fields of the trapframe, `kernel_trap` and `kernel_satp` are the same for all
processes and are left out. -/
def switchTo (proc : ℕ) : Exec (Kernel σ) Unit := do
  modify fun k => { k with current := proc }
  modify fun k => k.setProc proc fun p => { p with frame := { p.frame with kernelSp := p.kstack } }

/-- The allocator of `pmm.c` together with the share counts of the pages. -/
structure Pool where
  pmm : Pmm
  shares : ℕ → ℕ

def pmmEnv : PageEnv Pool where
  alloc k :=
    match allocPage k.tp k.pool.pmm with
    | .ok pa pmm => .ok pa ⟨pmm, Function.update k.pool.shares pa 1⟩
    | .error e pmm => .error e { k.pool with pmm }
  free pa k :=
    match pfree k.tp pa k.pool.pmm with
    | .ok _ pmm => .ok () { k.pool with pmm }
    | .error e pmm => .error e { k.pool with pmm }
  share pa k := { k.pool with shares := Function.update k.pool.shares pa (k.pool.shares pa + 1) }
  refs pa k := k.pool.shares pa

end Pke.Model
