import Pke.Model.Machine

/-! # Processes and the kernel state

The data of `process.h` and `riscv.h`, and the state that the page-table, process and system-call code
works on. Physical memory is an array of pages of 512 words. A trapframe and a region table occupy a
page of their own; their contents are kept beside the address of that page. The allocator is a
component of the state behind `PageEnv`, since `get_page` and `get_page_ref` are declared but not
defined in the source.
-/

namespace Pke.Model

def NPROC : ℕ := 32
def MAX_HEAP_PAGES : ℕ := 32
def USER_STACK_TOP : ℕ := 0x7ffff000
def USER_FREE_ADDRESS_START : ℕ := 0x00000000 + PGSIZE * 1024

/-- `MAXVA`, one beyond the highest virtual address. -/
def MAXVA : ℕ := 2 ^ 38

inductive ProcStatus where
  | FREE | READY | RUNNING | BLOCKED | ZOMBIE
deriving DecidableEq, Repr

inductive SegmentType where
  | STACK_SEGMENT | CONTEXT_SEGMENT | SYSTEM_SEGMENT | HEAP_SEGMENT | CODE_SEGMENT | DATA_SEGMENT
deriving DecidableEq, Repr

/-- The index of the fixed region of a segment type in `mapped_info`. -/
def SegmentType.index : SegmentType → ℕ
  | .STACK_SEGMENT => 0
  | .CONTEXT_SEGMENT => 1
  | .SYSTEM_SEGMENT => 2
  | .HEAP_SEGMENT => 3
  | .CODE_SEGMENT => 4
  | .DATA_SEGMENT => 5

/-- `mapped_region`. -/
structure MappedRegion where
  va : ℕ
  npages : ℕ
  segType : SegmentType
deriving DecidableEq, Repr

/-- `process_heap_manager`. -/
structure HeapManager where
  heapTop : ℕ
  heapBottom : ℕ
  freePagesAddress : ℕ → ℕ
  freePagesCount : ℕ

/-- The general registers in the order of `riscv_regs`. -/
inductive Reg where
  | ra | sp | gp | tp | t0 | t1 | t2 | s0 | s1 | a0 | a1 | a2 | a3 | a4 | a5 | a6 | a7
  | s2 | s3 | s4 | s5 | s6 | s7 | s8 | s9 | s10 | s11 | t3 | t4 | t5 | t6
deriving DecidableEq, Repr

abbrev Regs := Reg → ℕ

/-- `trapframe`. -/
structure Trapframe where
  regs : Regs
  kernelSp : ℕ
  kernelTrap : ℕ
  epc : ℕ
  kernelSatp : ℕ

/-- `process`. The tables that a pointer leads to are the fields `frame` and `regions`; processes are
named by their index in `procs`. -/
structure Process where
  kstack : ℕ
  pagetable : ℕ
  trapframe : ℕ
  frame : Trapframe
  mappedInfo : ℕ
  regions : ℕ → MappedRegion
  totalMappedRegion : ℕ
  userHeap : HeapManager
  pid : ℕ
  status : ProcStatus
  parent : Option ℕ
  queueNext : Option ℕ

/-- The history variable of the kernel: pages obtained from and given to the allocator, heap pages
handed to and taken from processes, and the creation of address spaces. -/
inductive PageEvent where
  | alloc (pa : ℕ)
  | free (pa : ℕ)
  | grant (pid va : ℕ)
  | release (pid va : ℕ)
  | create (pid : ℕ)
  | fork (parent child : ℕ)
deriving DecidableEq, Repr

/-- The kernel, over an allocator state `σ`. `tp` is the thread-pointer register of the hart, and
`varargs` are the words that `va_arg` finds in registers and on the stack behind the arguments that
were passed. -/
structure Kernel (σ : Type) where
  pool : σ
  mem : ℕ → ℕ → ℕ
  procs : ℕ → Process
  current : ℕ
  readyQueueHead : Option ℕ
  tp : ℕ
  varargs : ℕ → ℕ
  trace : List PageEvent

/-- The behaviour of the page functions that the rest of the kernel calls: `alloc_page`, `pfree`,
`get_page` and `get_page_ref`. -/
structure PageEnv (σ : Type) where
  alloc : Kernel σ → EStateM.Result Stop σ ℕ
  free : ℕ → Kernel σ → EStateM.Result Stop σ Unit
  share : ℕ → Kernel σ → σ
  refs : ℕ → Kernel σ → ℕ

/-- Addresses that the linker fixes: the page of the trap vector in the kernel image, and `procs`. -/
structure Layout where
  trapSecStart : ℕ
  procs : ℕ
  aligned : trapSecStart % PGSIZE = 0
  image : KERN_BASE ≤ trapSecStart
  top : trapSecStart < DRAM_BASE + PKE_MAX_ALLOWABLE_RAM

/-- `sizeof(process)`. -/
def PROCESS_SIZE : ℕ := 360

/-- The address of `procs[i]`. -/
def Layout.procAddr (lay : Layout) (i : ℕ) : ℕ := lay.procs + PROCESS_SIZE * i

variable {σ : Type}

namespace Kernel

def record (k : Kernel σ) (e : PageEvent) : Kernel σ := { k with trace := e :: k.trace }

def setProc (k : Kernel σ) (i : ℕ) (change : Process → Process) : Kernel σ :=
  { k with procs := Function.update k.procs i (change (k.procs i)) }

def setWord (k : Kernel σ) (page index word : ℕ) : Kernel σ :=
  { k with mem := Function.update k.mem page (Function.update (k.mem page) index word) }

def setPage (k : Kernel σ) (page : ℕ) (words : ℕ → ℕ) : Kernel σ :=
  { k with mem := Function.update k.mem page words }

/-- The state after `alloc_page` returned `pa`. -/
def took (k : Kernel σ) (pa : ℕ) (pool : σ) : Kernel σ :=
  { k with pool := pool, trace := .alloc pa :: k.trace }

/-- The state after `pfree(pa)`. -/
def gave (k : Kernel σ) (pa : ℕ) (pool : σ) : Kernel σ :=
  { k with pool := pool, trace := .free pa :: k.trace }

end Kernel

namespace PageEnv

variable (env : PageEnv σ)

def allocPage : Exec (Kernel σ) ℕ := fun k =>
  match env.alloc k with
  | .ok pa pool => .ok pa (k.took pa pool)
  | .error e pool => .error e { k with pool := pool }

def pfree (pa : ℕ) : Exec (Kernel σ) Unit := fun k =>
  match env.free pa k with
  | .ok _ pool => .ok () (k.gave pa pool)
  | .error e pool => .error e { k with pool := pool }

def getPage (pa : ℕ) : Exec (Kernel σ) Unit := modify fun k => { k with pool := env.share pa k }

def getPageRef (pa : ℕ) : Exec (Kernel σ) ℕ := return env.refs pa (← get)

end PageEnv

end Pke.Model
