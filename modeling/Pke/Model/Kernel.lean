import Pke.Model.Elf

/-! # Process management, heap system calls and page faults

`process.c`, `sched.c` (the ready queue), the heap calls of `syscall.c` and `handle_user_page_fault` of
`strap.c`. Calls of `page_walk` with three arguments are walks to level 0, as `vmm.h` declares them.
-/

namespace Pke.Model

variable {σ : Type}

def zeroTrapframe : Trapframe := ⟨fun _ => 0, 0, 0, 0, 0⟩

def zeroRegion : MappedRegion := ⟨0, 0, .STACK_SEGMENT⟩

def zeroProcess : Process :=
  ⟨0, 0, 0, zeroTrapframe, 0, fun _ => zeroRegion, 0, ⟨0, 0, fun _ => 0, 0⟩, 0, .FREE, none, none⟩

def initProcPool : Exec (Kernel σ) Unit :=
  modify fun k => { k with procs := fun i => if i < NPROC then { zeroProcess with pid := i } else k.procs i }

/-- Overwrite one entry of `mapped_info`. -/
def Process.setRegion (p : Process) (i : ℕ) (region : MappedRegion) : Process :=
  { p with regions := Function.update p.regions i region }

/-- The first process structure whose status is `FREE`. -/
def freeProcess? (procs : ℕ → Process) : Option ℕ :=
  (List.range NPROC).find? fun i => (procs i).status = .FREE

/-- `alloc_process`. -/
def allocProcess (env : PageEnv σ) (lay : Layout) : Exec (Kernel σ) ℕ := do
  match freeProcess? (← get).procs with
  | none => throw (.panic "cannot find any free process structure.\n")
  | some i =>
    modify fun k => k.record (.create i)
    let trapframe ← env.allocPage
    modify fun k => k.setProc i fun p => { p with trapframe, frame := zeroTrapframe }
    let pagetable ← env.allocPage
    modify fun k => k.setProc i fun p => { p with pagetable }
    clearPage (pagetable / PGSIZE)
    let kstack ← env.allocPage
    modify fun k => k.setProc i fun p => { p with kstack := (kstack + PGSIZE) % WORD }
    let userStack ← env.allocPage
    modify fun k => k.setProc i fun p =>
      { p with frame := { p.frame with regs := Function.update p.frame.regs .sp USER_STACK_TOP } }
    let mappedInfo ← env.allocPage
    modify fun k => k.setProc i fun p => { p with mappedInfo, regions := fun _ => zeroRegion }
    userVmMap env pagetable (USER_STACK_TOP - PGSIZE) PGSIZE userStack (protToType true true false true)
    modify fun k => k.setProc i fun p => p.setRegion 0 ⟨USER_STACK_TOP - PGSIZE, 1, .STACK_SEGMENT⟩
    userVmMap env pagetable trapframe PGSIZE trapframe (protToType true true false false)
    modify fun k => k.setProc i fun p => p.setRegion 1 ⟨trapframe, 1, .CONTEXT_SEGMENT⟩
    userVmMap env pagetable lay.trapSecStart PGSIZE lay.trapSecStart (protToType true false true false)
    modify fun k => k.setProc i fun p => p.setRegion 2 ⟨lay.trapSecStart, 1, .SYSTEM_SEGMENT⟩
    modify fun k => k.setProc i fun p =>
      { p with userHeap := { p.userHeap with
          heapTop := USER_FREE_ADDRESS_START, heapBottom := USER_FREE_ADDRESS_START, freePagesCount := 0 } }
    modify fun k => k.setProc i fun p => p.setRegion 3 ⟨USER_FREE_ADDRESS_START, 0, .HEAP_SEGMENT⟩
    modify fun k => k.setProc i fun p => { p with totalMappedRegion := 4 }
    return i

def freeProcess (i : ℕ) : Exec (Kernel σ) Unit :=
  modify fun k => k.setProc i fun p => { p with status := .ZOMBIE }

/-- The walk of `insert_to_ready_queue` to the last element; `none` if the process is on the queue. A
queue of more elements than there are processes is a cycle, which is followed forever. -/
def queueLast (procs : ℕ → Process) (proc : ℕ) : ℕ → ℕ → Except Stop (Option ℕ)
  | 0, _ => .error .spinsForever
  | fuel + 1, p =>
    if p = proc then .ok none
    else
      match (procs p).queueNext with
      | none => .ok (some p)
      | some next => queueLast procs proc fuel next

/-- `insert_to_ready_queue` whose walk is given up after `steps` elements: more than there are
processes is enough for a queue of processes, but the walk itself has no bound. -/
def insertToReadyQueueWithin (steps proc : ℕ) : Exec (Kernel σ) Unit := do
  let k ← get
  match k.readyQueueHead with
  | none =>
    modify fun k => k.setProc proc fun p => { p with status := .READY, queueNext := none }
    modify fun k => { k with readyQueueHead := some proc }
  | some head =>
    match queueLast k.procs proc steps head with
    | .error stop => throw stop
    | .ok none => pure ()
    | .ok (some last) =>
      modify fun k => k.setProc last fun p => { p with queueNext := some proc }
      modify fun k => k.setProc proc fun p => { p with status := .READY, queueNext := none }

def insertToReadyQueue (proc : ℕ) : Exec (Kernel σ) Unit := insertToReadyQueueWithin (NPROC + 1) proc

/-- One page of a stack or heap region in `do_fork`: a writable page becomes read-only and
copy-on-write in the parent, and the child shares the entry. -/
def forkSharePage (env : PageEnv σ) (parent child va : ℕ) : Exec (Kernel σ) Unit := do
  match ← pageWalk env ((← get).procs parent).pagetable va 0 false with
  | none => throw .nullDereference
  | some slot =>
    let pte := pteAt (← get) slot
    if has pte PTE_V then
      if has pte PTE_W then setPte slot (clear pte PTE_W ||| PTE_COW)
      env.getPage (PTE2PA (pteAt (← get) slot))
      match ← pageWalk env ((← get).procs child).pagetable va 0 true with
      | none => throw (.panic "do_fork: page_walk failed to allocate leaf page table.\n")
      | some childSlot => setPte childSlot (pteAt (← get) slot)

/-- One page of a code region in `do_fork`. -/
def forkCodePage (env : PageEnv σ) (parent child va : ℕ) : Exec (Kernel σ) Unit := do
  let pa ← lookupPa env ((← get).procs parent).pagetable va
  userVmMap env ((← get).procs child).pagetable va PGSIZE pa (protToType true false true true)

/-- The address of page `n` of a region; the product is a 32-bit one. -/
def regionPage (region : MappedRegion) (n : ℕ) : ℕ := (region.va + n * PGSIZE % 2 ^ 32) % WORD

/-- The body of the loop of `do_fork` over the regions of the parent. -/
def forkRegion (env : PageEnv σ) (parent child i : ℕ) : Exec (Kernel σ) Unit := do
  let region := ((← get).procs parent).regions i
  match region.segType with
  | .CONTEXT_SEGMENT => modify fun k => k.setProc child fun p => { p with frame := (k.procs parent).frame }
  | .STACK_SEGMENT =>
    (List.range region.npages).forM fun n => forkSharePage env parent child (regionPage region n)
  | .HEAP_SEGMENT =>
    (List.range region.npages).forM fun n => forkSharePage env parent child (regionPage region n)
    modify fun k => k.setProc child fun p => { p with userHeap := (k.procs parent).userHeap }
  | .CODE_SEGMENT =>
    let _ ← lookupPa env ((← get).procs parent).pagetable region.va
    (List.range region.npages).forM fun n => forkCodePage env parent child (regionPage region n)
    modify fun k => k.setProc child fun p =>
      { p.setRegion p.totalMappedRegion { region with segType := .CODE_SEGMENT } with
        totalMappedRegion := p.totalMappedRegion + 1 }
  | _ => pure ()

/-- `do_fork`; it returns the index of the child. -/
def doFork (env : PageEnv σ) (lay : Layout) (parent : ℕ) : Exec (Kernel σ) ℕ := do
  let child ← allocProcess env lay
  (List.range ((← get).procs parent).totalMappedRegion).forM (forkRegion env parent child)
  modify fun k => k.setProc child fun p =>
    { p with
      frame := { p.frame with regs := Function.update p.frame.regs .tp (lay.procAddr child) }, status := .READY }
  modify fun k => k.setProc child fun p =>
    { p with frame := { p.frame with regs := Function.update p.frame.regs .a0 0 }, parent := some parent }
  insertToReadyQueue child
  modify fun k => k.record (.fork parent child)
  return child

def sysUserAllocatePage (env : PageEnv σ) : Exec (Kernel σ) ℕ := do
  let pa ← env.allocPage
  let current := (← get).current
  let heap := ((← get).procs current).userHeap
  let va ← if heap.freePagesCount > 0 then do
      modify fun k => k.setProc current fun p =>
        { p with userHeap := { p.userHeap with freePagesCount := decr32 p.userHeap.freePagesCount } }
      let va := heap.freePagesAddress (decr32 heap.freePagesCount)
      assert (va < heap.heapTop) "va < current->user_heap.heap_top"
      pure va
    else do
      modify fun k => k.setProc current fun p =>
        { p with userHeap := { p.userHeap with heapTop := (p.userHeap.heapTop + PGSIZE) % WORD } }
      modify fun k => k.setProc current fun p =>
        p.setRegion 3 { p.regions 3 with npages := incr32 (p.regions 3).npages }
      pure heap.heapTop
  userVmMap env ((← get).procs current).pagetable va PGSIZE pa (protToType true true false true)
  modify fun k => k.record (.grant current va)
  return va

/-- `free_pages_address[free_pages_count++] = va`; behind the last element C promises nothing. -/
def pushFreePage (current va : ℕ) : Exec (Kernel σ) Unit := do
  if ((← get).procs current).userHeap.freePagesCount < MAX_HEAP_PAGES then
    modify fun k => k.setProc current fun p =>
      { p with userHeap := { p.userHeap with
          freePagesAddress := Function.update p.userHeap.freePagesAddress p.userHeap.freePagesCount va
          freePagesCount := incr32 p.userHeap.freePagesCount } }
  else throw .outOfBounds

def sysUserFreePage (env : PageEnv σ) (va : ℕ) : Exec (Kernel σ) Unit := do
  let current := (← get).current
  userVmUnmap env ((← get).procs current).pagetable va PGSIZE true
  pushFreePage current va
  modify fun k => k.record (.release current va)

def CAUSE_STORE_PAGE_FAULT : ℕ := 0xf
def CAUSE_LOAD_PAGE_FAULT : ℕ := 0xd

/-- `handle_user_page_fault`. The cause of a load fault is not handled: the function just returns. -/
def handleUserPageFault (env : PageEnv σ) (mcause stval : ℕ) : Exec (Kernel σ) Unit := do
  if mcause = CAUSE_STORE_PAGE_FAULT then
    let slot? ← pageWalk env ((← get).procs (← get).current).pagetable stval 0 false
    match slot? with
    | none => throw (.panic "Illegal memory access or Stack Overflow.\n")
    | some slot =>
      let pte := pteAt (← get) slot
      if has pte PTE_V && has pte PTE_COW then
        let pa := PTE2PA pte
        if (← env.getPageRef pa) > 1 then
          let newPa ← env.allocPage
          if newPa = 0 then throw (.panic "COW: Out of physical memory.\n")
          modify fun k => k.setPage (newPa / PGSIZE) (k.mem (pa / PGSIZE))
          setPte slot (PA2PTE newPa ||| clear (pteAt (← get) slot % 2 ^ 10) PTE_COW ||| PTE_W)
          env.pfree pa
        else
          setPte slot (clear (pte ||| PTE_W) PTE_COW)
      else throw (.panic "Illegal memory access or Stack Overflow.\n")

end Pke.Model
