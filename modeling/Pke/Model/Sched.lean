import Pke.Model.Trap

/-! # Dispatching processes: `schedule` and the return to user mode

`schedule` of `sched.c`, and the ways into user mode: from `s_start` through `load_user_program`,
and from a trap. A trap ends in `switch_to(current)`, except that `sys_user_exit` ends in
`schedule`.
-/

namespace Pke.Model

variable {σ : Type}

/-- `load_user_program` of the given file. -/
def loadUserProgram (env : PageEnv σ) (lay : Layout) (file : HostFile) : Exec (Kernel σ) ℕ := do
  let proc ← allocProcess env lay
  loadBincodeFromHostElf env proc file
  return proc

/-- The scan of `schedule` for a process that is neither `FREE` nor a `ZOMBIE`. -/
def shouldShutdown (procs : ℕ → Process) : Bool :=
  (List.range NPROC).all fun i => (procs i).status = .FREE || (procs i).status = .ZOMBIE

def schedule : Exec (Kernel σ) Unit := do
  match (← get).readyQueueHead with
  | none =>
    if shouldShutdown (← get).procs then throw (.shutdown 0)
    else throw (.panic "Not handled: we should let system wait for unfinished processes.\n")
  | some head =>
    modify fun k => { k with current := head }
    assert (((← get).procs head).status = .READY) "current->status == READY"
    modify fun k => { k with readyQueueHead := (k.procs head).queueNext }
    modify fun k => k.setProc head fun p => { p with status := .RUNNING }
    switchTo head

/-- `smode_trap_handler` with the return to user mode. -/
def userTrap (env : PageEnv σ) (lay : Layout) (cause : Cause) : Exec (Kernel σ) Unit := do
  let k ← get
  if cause = .ecall ∧ (k.procs k.current).frame.regs .a0 = SYS_user_exit then
    modify fun k => k.setFrame fun frame => { frame with epc := (frame.epc + 4) % WORD }
    let _ ← sysUserExit
    schedule
  else
    smodeTrapHandler env lay cause
    switchTo (← get).current

/-- A trap from user mode: `smode_trap_vector` saves the registers and calls the handler. -/
def smodeTrap (env : PageEnv σ) (lay : Layout) (regs : Regs) (sepc : ℕ) (cause : Cause) :
    Exec (Kernel σ) Unit := do
  modify fun k => k.entered regs sepc
  userTrap env lay cause

end Pke.Model
