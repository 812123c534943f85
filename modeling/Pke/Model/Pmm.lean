import Pke.Model.Buddy

/-! # The page allocator of `pmm.c`: lock, per-CPU caches and entry points

One hart runs the entry points to completion. `buddy_lock` is a non-reentrant spinlock, so a second
`lock_acquire` by the hart that holds it spins forever. An index that is not one of `pcpu_caches` or
of `objs` ends the call, and every index that a call uses is recorded before. `events` is a history
variable (newest first) that no function reads.
-/

namespace Pke.Model

open Pke.Lib

/-- What the history variable records: lock operations, the index `read_tp()` used for
`pcpu_caches`, and each slot of `objs` that is read or written. -/
inductive PmmEvent where
  | acquire
  | release
  | cpu (id : ℕ)
  | objs (index : ℕ)
deriving DecidableEq, Repr

/-- `percpu_cache_t`; the slots hold the frame numbers of the cached descriptors. -/
structure Cache where
  objs : ℕ → ℕ
  count : ℕ

/-- The global state of `pmm.c`. -/
structure Pmm where
  buddy : Buddy
  lock : Bool
  caches : ℕ → Cache
  nrPages : ℕ
  buddyStart : ℕ
  buddyEnd : ℕ
  events : List PmmEvent

namespace Pmm

def record (s : Pmm) (e : PmmEvent) : Pmm := { s with events := e :: s.events }

def setCount (s : Pmm) (id count : ℕ) : Pmm :=
  { s with caches := Function.update s.caches id { s.caches id with count := count } }

def setObj (s : Pmm) (id index pfn : ℕ) : Pmm :=
  { s with
    caches := Function.update s.caches id 
      { s.caches id with objs := Function.update (s.caches id).objs index pfn } }

end Pmm

def lockAcquire : Exec Pmm Unit := fun s =>
  if s.lock then .error .spinsForever s else .ok () { s.record .acquire with lock := true }

def lockRelease : Exec Pmm Unit := fun s => .ok () { s.record .release with lock := false }

def onBuddy (change : Buddy → Buddy) : Exec Pmm Unit := modify fun s => { s with buddy := change s.buddy }

def buddyAlloc (order : ℕ) : Exec Pmm ℕ := do
  kassert (order < MAX_ORDER) "likely(order >= 0 && order < MAX_ORDER)"
  lockAcquire
  match buddyTake order (← get).buddy with
  | some (p, b) =>
    onBuddy fun _ => b
    lockRelease
    onBuddy (markTaken p)
    return PFN_TO_ADDR p
  | none =>
    lockRelease
    throw (.panic "buddy_alloc : Out of required size of memory!\n")

def buddyFree (addr : ℕ) : Exec Pmm Unit := do
  let s ← get
  kassert (addr ≥ s.buddyStart || addr < s.buddyEnd) "addr >= buddy_start || addr < buddy_end"
  lockAcquire
  onBuddy (buddyMergeInner (ADDR_TO_PFN addr))
  lockRelease

/-- The slot `objs[index]`, which has to be one of the array. -/
def objsIndex (index : ℕ) : Exec Pmm Unit := do
  modify fun s => s.record (.objs index)
  if index < PCPU_CACHE_SIZE then pure () else throw .outOfBounds

/-- `pcpu_caches[id]`, which has to be one of the array. -/
def cacheIndex (id : ℕ) : Exec Pmm Unit := do
  modify fun s => s.record (.cpu id)
  if id < NCPU then pure () else throw .outOfBounds

/-- `objs[index] = p`. -/
def storeObj (id index pfn : ℕ) : Exec Pmm Unit := do
  objsIndex index
  modify fun s => s.setObj id index pfn

/-- The refill loop of `alloc_page`: `objs[count++] = buddy_alloc(0)`, `n` times. -/
def refill (id : ℕ) : ℕ → Exec Pmm Unit
  | 0 => pure ()
  | n + 1 => do
    let addr ← buddyAlloc 0
    storeObj id ((← get).caches id).count (ADDR_TO_PFN addr)
    modify fun s => s.setCount id (incr32 (s.caches id).count)
    refill id n

/-- `objs[--count]`. -/
def popObj (id : ℕ) : Exec Pmm ℕ := do
  modify fun s => s.setCount id (decr32 (s.caches id).count)
  objsIndex ((← get).caches id).count
  let s ← get
  return (s.caches id).objs (s.caches id).count

/-- `alloc_page` on a hart whose `tp` register holds `tp`. -/
def allocPage (tp : ℕ) : Exec Pmm ℕ := do
  cacheIndex tp
  let s ← get
  if (s.caches tp).count = 0 then
    lockAcquire
    refill tp 16
    lockRelease
  let pfn ← popObj tp
  return PFN_TO_ADDR pfn

/-- The drain loop of `pfree`. -/
def drain (id : ℕ) : ℕ → Exec Pmm Unit
  | 0 => pure ()
  | n + 1 => do
    let pfn ← popObj id
    onBuddy (buddyMergeInner pfn)
    drain id n

/-- `objs[++count] = p`. -/
def pushObj (id pfn : ℕ) : Exec Pmm Unit := do
  modify fun s => s.setCount id (incr32 (s.caches id).count)
  storeObj id ((← get).caches id).count pfn

/-- `pfree` on a hart whose `tp` register holds `tp`. Saving and restoring the interrupt flag does
not touch the allocator. -/
def pfree (tp addr : ℕ) : Exec Pmm Unit := do
  let pfn := ADDR_TO_PFN addr
  let s ← get
  if (s.buddy.pages pfn).order ≠ 0 then
    lockAcquire
    onBuddy (buddyMergeInner pfn)
    lockRelease
  else
    cacheIndex tp
    let s ← get
    if (s.caches tp).count = PCPU_CACHE_SIZE then
      lockAcquire
      drain tp 16
      lockRelease
    pushObj tp pfn

/-- One slot of the prefill loop of `pmm_init`. -/
def prefillSlot (id index : ℕ) : Exec Pmm Unit := do
  let addr ← buddyAlloc 0
  storeObj id index (ADDR_TO_PFN addr)

def prefill (id : ℕ) : Exec Pmm Unit := do
  (List.range PCPU_CACHE_SIZE).forM (prefillSlot id)
  modify fun s => s.setCount id PCPU_CACHE_SIZE

/-- The descriptor that `pmm_init` writes before the partition: all zero except `alloc = 3`. -/
def reservedPage : Page := { isFree := false, isHead := false, order := 0, alloc := 3 }

/-- `sizeof(page_t)`. -/
def PAGE_T_SIZE : ℕ := 24

/-- The part of `pmm_init` before the caches are filled, for a kernel image that ends at `kernelEnd`
on a machine with `memSize` bytes: it places the descriptors behind the image, clears them and
partitions the memory behind them. It runs on whatever the memory held before. -/
def pmmSetup (kernelEnd memSize : ℕ) : Exec Pmm Unit := do
  let size := min PKE_MAX_ALLOWABLE_RAM memSize
  if size < kernelEnd - KERN_BASE then
    throw (.panic "Error when recomputing physical memory size (g_mem_size).\n")
  let pages := ROUNDUP kernelEnd 8
  let nrPages := size / PGSIZE
  let buddyStart := ROUNDUP (nrPages * PAGE_T_SIZE + pages) PGSIZE
  let buddyEnd := ROUNDDOWN (size + DRAM_BASE) PGSIZE
  modify fun s => { s with nrPages, buddyStart, buddyEnd }
  onBuddy fun b => { b with pages := fun i => if i < nrPages then reservedPage else b.pages i }
  modify fun s => { s with lock := false, buddy := buddySystemInit buddyStart buddyEnd s.buddy }

def pmmInit (kernelEnd memSize : ℕ) : Exec Pmm Unit := do
  pmmSetup kernelEnd memSize
  (List.range NCPU).forM prefill

end Pke.Model
