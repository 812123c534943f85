import Pke.Proofs.ProcessSteps

/-! # The invariant of process structures

`ProcOk` relates a process structure to the flags of its leaf entries: the fixed regions, the loaded
segments, the heap manager, and that every user page belongs to one of them. `Good` is this invariant for
all processes over intact address spaces. `Exclusive` says that a writable user page is mapped once; it is
carried along every step that maps fresh pages only.
-/

namespace Pke.Proofs

open Pke.Lib Pke.Model

variable {σ : Type} {env : PageEnv σ} {trapSec : ℕ} {S : Supply env trapSec}

/-- The invariant of a heap manager: the recorded pages are aligned, inside the heap, not mapped, and
recorded once. -/
structure HeapOk (h : HeapManager) (pte : ℕ → ℕ) : Prop where
  count : h.freePagesCount ≤ MAX_HEAP_PAGES
  aligned : ∀ i < h.freePagesCount, h.freePagesAddress i % PGSIZE = 0
  range : ∀ i < h.freePagesCount, h.heapBottom ≤ h.freePagesAddress i ∧ h.freePagesAddress i < h.heapTop
  unmapped : ∀ i < h.freePagesCount, has (pte (h.freePagesAddress i)) PTE_V = false
  distinct : ∀ i < h.freePagesCount, ∀ j < h.freePagesCount, h.freePagesAddress i = h.freePagesAddress j → i = j

/-- A region that `elf_load` registered. -/
structure Loaded (h : HeapManager) (pte : ℕ → ℕ) (region : MappedRegion) : Prop where
  type : region.segType = .CODE_SEGMENT ∨ region.segType = .DATA_SEGMENT
  single : region.npages = 1
  aligned : region.va % PGSIZE = 0
  low : 0 < region.va
  high : region.va < MAXVA
  apart : region.va < h.heapBottom ∨ h.heapTop ≤ region.va
  leaf : UserLeaf (pte region.va)
  readable : has (pte region.va) PTE_R = true

/-- The regions that every process has, in the order `alloc_process` makes them. -/
structure FixedRegions (regions : ℕ → MappedRegion) : Prop where
  stack : regions 0 = ⟨STACK_PAGE, 1, .STACK_SEGMENT⟩
  context : (regions 1).segType = .CONTEXT_SEGMENT ∧ (regions 1).npages = 1 ∧ (regions 1).va ≠ 0
  system : (regions 2).segType = .SYSTEM_SEGMENT ∧ (regions 2).npages = 1 ∧ (regions 2).va ≠ 0
  heap : (regions 3).segType = .HEAP_SEGMENT ∧ (regions 3).va = USER_FREE_ADDRESS_START

/-- The page belongs to the stack, to the heap or to a loaded segment. -/
def UserPage (p : Process) (va : ℕ) : Prop :=
  pageOf va = pageOf STACK_PAGE ∨
  (∃ a, a % PGSIZE = 0 ∧ p.userHeap.heapBottom ≤ a ∧ a < p.userHeap.heapTop ∧ pageOf va = pageOf a) ∨
  ∃ i, 4 ≤ i ∧ i < p.totalMappedRegion ∧ pageOf va = pageOf (p.regions i).va

/-- The invariant of one process structure with leaf entries `pte`. -/
structure ProcOk (p : Process) (pte : ℕ → ℕ) : Prop where
  fixed : FixedRegions p.regions
  total : 4 ≤ p.totalMappedRegion ∧ p.totalMappedRegion ≤ REGION_SLOTS
  unused : ∀ i, p.totalMappedRegion ≤ i → (p.regions i).va = 0
  loaded : ∀ i, 4 ≤ i → i < p.totalMappedRegion → Loaded p.userHeap pte (p.regions i)
  bottom : p.userHeap.heapBottom = USER_FREE_ADDRESS_START
  top : p.userHeap.heapTop % PGSIZE = 0 ∧ USER_FREE_ADDRESS_START ≤ p.userHeap.heapTop ∧
    p.userHeap.heapTop ≤ STACK_PAGE
  heapPages : USER_FREE_ADDRESS_START + (p.regions 3).npages * PGSIZE ≤ p.userHeap.heapTop
  heap : HeapOk p.userHeap pte
  stack : UserLeaf (pte STACK_PAGE)
  covered : ∀ va, UserLeaf (pte va) → UserPage p va
  young : p.status = .FREE → p.userHeap.heapTop = USER_FREE_ADDRESS_START ∧ p.userHeap.freePagesCount = 0

def Procs (k : Kernel σ) : Prop := ∀ pid, HasSpace k pid → ProcOk (k.procs pid) (pteOf k pid)

/-- Intact address spaces of processes that satisfy their invariant. -/
structure Good (S : Supply env trapSec) (k : Kernel σ) (own : Owner) : Prop where
  space : Space S k own
  procs : Procs k

/-- A page that some process can write is mapped for the user only once. -/
def Exclusive (k : Kernel σ) : Prop :=
  ∀ pid va pid' va', HasSpace k pid → HasSpace k pid' → UserLeaf (pteOf k pid va) →
  UserLeaf (pteOf k pid' va') →
    has (pteOf k pid va) PTE_W = true → frameOf (pteOf k pid va) = frameOf (pteOf k pid' va') →
    pid = pid' ∧ pageOf va = pageOf va'

theorem pageOf_injective {a b : ℕ} (alignedA : a % PGSIZE = 0) (alignedB : b % PGSIZE = 0) (highA : a < MAXVA)
    (highB : b < MAXVA) (same : pageOf a = pageOf b) : a = b := by
  simp only [pageOf, PGSIZE, MAXVA] at *
  omega

/-- The flags that the invariant looks at. -/
def SameAccess (pte pte' : ℕ) : Prop :=
  has pte' PTE_V = has pte PTE_V ∧ has pte' PTE_U = has pte PTE_U ∧ has pte' PTE_R = has pte PTE_R

theorem SameAccess.userLeaf {pte pte' : ℕ} (same : SameAccess pte pte') : UserLeaf pte' ↔ UserLeaf pte := by
  rw [UserLeaf, UserLeaf, same.1, same.2.1]

theorem SameAccess.refl (pte : ℕ) : SameAccess pte pte := ⟨rfl, rfl, rfl⟩

namespace ProcOk

variable {p q : Process} {pte pte' : ℕ → ℕ}

/-- The invariant looks at the regions, the heap manager and the access flags only. -/
theorem congr (ok : ProcOk p pte) (regions : q.regions = p.regions)
    (total : q.totalMappedRegion = p.totalMappedRegion) (heap : q.userHeap = p.userHeap)
    (status : q.status = .FREE → p.status = .FREE) (access : ∀ va, SameAccess (pte va) (pte' va)) :
    ProcOk q pte' where
  fixed := regions ▸ ok.fixed
  total := by rw [total]; exact ok.total
  unused := by rw [total, regions]; exact ok.unused
  loaded := by
    rw [total, regions, heap]
    intro i low high
    obtain ⟨type, single, aligned, positive, small, apart, leaf, readable⟩ := ok.loaded i low high
    exact ⟨type, single, aligned, positive, small, apart, (access _).userLeaf.mpr leaf,
      (access _).2.2.trans readable⟩
  bottom := by rw [heap]; exact ok.bottom
  top := by rw [heap]; exact ok.top
  heapPages := by rw [heap, regions]; exact ok.heapPages
  heap := by
    rw [heap]
    exact ⟨ok.heap.count, ok.heap.aligned, ok.heap.range,
      fun i below => (access _).1.trans (ok.heap.unmapped i below),
      ok.heap.distinct⟩
  stack := (access _).userLeaf.mpr ok.stack
  covered va leaf := by
    rw [UserPage, regions, total, heap]
    exact ok.covered va ((access va).userLeaf.mp leaf)
  young free := by rw [heap]; exact ok.young (status free)

theorem heap_below (ok : ProcOk p pte) {a : ℕ} (below : a < p.userHeap.heapTop) : a < STACK_PAGE :=
  lt_of_lt_of_le below ok.top.2.2

end ProcOk

/-- The other processes keep their invariant. -/
theorem Only.procsOk {who : ℕ → Prop} {k k' : Kernel σ} {own own' : Owner} (only : Only S who k own k' own')
    (procs : Procs k) (self : ∀ pid, who pid → HasSpace k' pid → ProcOk (k'.procs pid) (pteOf k' pid)) :
    Procs k' := by
  intro pid inside
  by_cases here : who pid
  · exact self pid here inside
  · have old := (only.hasSpace here).mp inside
    rw [only.procs pid here, show pteOf k' pid = pteOf k pid from funext (only.ptes pid here old)]
    exact procs pid old

/-- The page is mapped, its frame is not that of the trap vector, and no other page has the same frame. -/
structure MappedOnce (trapSec : ℕ) (k : Kernel σ) (pid va : ℕ) : Prop where
  mapped : has (pteOf k pid va) PTE_V = true
  image : frameOf (pteOf k pid va) ≠ trapSec
  single : ∀ pid', HasSpace k pid' → ∀ va', has (pteOf k pid' va') PTE_V = true →
    frameOf (pteOf k pid' va') = frameOf (pteOf k pid va) → pid' = pid ∧ pageOf va' = pageOf va

/-- One user page is new, and no other user page has its frame. -/
theorem Exclusive.gain {k k' : Kernel σ} (exclusive : Exclusive k) (pid va : ℕ)
    (cases : ∀ pid' va', HasSpace k' pid' → UserLeaf (pteOf k' pid' va') →
      (pid' = pid ∧ pageOf va' = pageOf va) ∨
      (HasSpace k pid' ∧ pteOf k' pid' va' = pteOf k pid' va' ∧ frameOf (pteOf k' pid' va') ≠ frameOf
      (pteOf k' pid va))) :
    Exclusive k' := by
  intro pid₁ va₁ pid₂ va₂ inside₁ inside₂ leaf₁ leaf₂ writable same
  rcases cases pid₁ va₁ inside₁ leaf₁ with ⟨rfl, page₁⟩ | ⟨old₁, pte₁, apart₁⟩
  · rcases cases pid₂ va₂ inside₂ leaf₂ with ⟨rfl, page₂⟩ | ⟨old₂, pte₂, apart₂⟩
    · exact ⟨rfl, page₁.trans page₂.symm⟩
    · rw [pteOf_congr page₁] at same
      exact absurd same.symm apart₂
  · rcases cases pid₂ va₂ inside₂ leaf₂ with ⟨rfl, page₂⟩ | ⟨old₂, pte₂, apart₂⟩
    · rw [pteOf_congr page₂] at same
      exact absurd same apart₁
    · rw [pte₁] at leaf₁ writable same
      rw [pte₂] at leaf₂ same
      exact exclusive pid₁ va₁ pid₂ va₂ old₁ old₂ leaf₁ leaf₂ writable same

/-- The leaf entries that matter for the user are the old ones. -/
theorem Exclusive.congr {k k' : Kernel σ} (exclusive : Exclusive k)
    (same : ∀ pid va, HasSpace k' pid → UserLeaf (pteOf k' pid va) → HasSpace k pid ∧
      pteOf k' pid va = pteOf k pid va) :
    Exclusive k' := by
  intro pid₁ va₁ pid₂ va₂ inside₁ inside₂ leaf₁ leaf₂ writable frames
  obtain ⟨old₁, pte₁⟩ := same pid₁ va₁ inside₁ leaf₁
  obtain ⟨old₂, pte₂⟩ := same pid₂ va₂ inside₂ leaf₂
  rw [pte₁] at leaf₁ writable frames
  rw [pte₂] at leaf₂ frames
  exact exclusive pid₁ va₁ pid₂ va₂ old₁ old₂ leaf₁ leaf₂ writable frames

/-- A new process satisfies the invariant. -/
theorem NewProcess.procOk {p : Process} {pte : ℕ → ℕ} {f : ℕ} (fields : NewProcess p)
    (leaves : NewSpace pte f) :
    ProcOk p pte := by
  obtain ⟨frame, image, frameLow, imageLow, regions⟩ := fields.regions
  have none : ∀ {i}, ¬ i < p.userHeap.freePagesCount := fun {i} below => by
    rw [fields.count] at below
    exact Nat.not_lt_zero i below
  refine ⟨⟨?_, ?_, ?_, ?_⟩, ?_, ?_, ?_, fields.heapBottom, ?_, ?_, ⟨?_, ?_, ?_, ?_, ?_⟩, ?_, ?_, ?_⟩
  · rw [regions]
    rfl
  · rw [regions]
    exact ⟨rfl, rfl, frameLow.ne'⟩
  · rw [regions]
    exact ⟨rfl, rfl, imageLow.ne'⟩
  · rw [regions]
    exact ⟨rfl, rfl⟩
  · rw [fields.total]
    decide
  · intro i high
    rw [fields.total] at high
    rw [regions, Function.update_of_ne (by omega), Function.update_of_ne (by omega),
      Function.update_of_ne (by omega), Function.update_of_ne (by omega)]
    rfl
  · intro i low high
    rw [fields.total] at high
    omega
  · rw [fields.heapTop]
    decide
  · rw [fields.heapTop, regions, Function.update_self, Nat.zero_mul]
    exact le_rfl
  · rw [fields.count]
    decide
  · exact fun i below => absurd below none
  · exact fun i below => absurd below none
  · exact fun i below => absurd below none
  · exact fun i below => absurd below none
  · rw [leaves.stack]
    exact ⟨has_valid_or _, by rw [show PTE_U = 2 ^ 4 from rfl, has_leaf (by decide)]; decide⟩
  · exact fun va leaf => Or.inl (leaves.user va leaf)
  · exact fun _ => ⟨fields.heapTop, fields.count⟩

section

variable {k k' : Kernel σ} {own own' : Owner}

theorem Spawned.good {i : ℕ} (good : Good S k own) (spawned : Spawned S k own i k' own') : Good S k' own' := by
  obtain ⟨f, leaves, _⟩ := spawned.leaves
  refine ⟨spawned.only.space, spawned.only.procsOk good.procs ?_⟩
  rintro _ rfl _
  exact spawned.fields.procOk leaves

theorem Spawned.exclusive {i : ℕ} (spawned : Spawned S k own i k' own') (exclusive : Exclusive k) :
    Exclusive k' := by
  obtain ⟨f, leaves, apart⟩ := spawned.leaves
  have frame : frameOf (pteOf k' i STACK_PAGE) = f := by
    rw [leaves.stack]
    exact frameOf_flags (by decide)
  refine exclusive.gain i STACK_PAGE fun pid va inside leaf => ?_
  by_cases here : pid = i
  · subst here
    exact Or.inl ⟨rfl, leaves.user va leaf⟩
  · have old := (spawned.only.hasSpace here).mp inside
    have same := spawned.only.ptes pid here old va
    refine Or.inr ⟨old, same, ?_⟩
    rw [frame, same]
    exact apart pid here old va (same ▸ leaf.1)

/-- A page of the allocator that nobody maps is mapped for the user of one process. -/
theorem Only.exclusive_map {pid va f perm : ℕ} (only : Only S (· = pid) k own k' own') (flags : perm < 2 ^ 10)
    (unmapped : ¬ Mapped k f) (inside : HasSpace k pid)
    (ptes : ∀ va', pteOf k' pid va' = if pageOf va' = pageOf va then f * 2 ^ 10 ||| perm ||| PTE_V
      else pteOf k pid va')
    (exclusive : Exclusive k) : Exclusive k' := by
  have frame : frameOf (pteOf k' pid va) = f := by
    rw [ptes, if_pos rfl]
    exact frameOf_flags flags
  refine exclusive.gain pid va fun pid' va' inside' leaf => ?_
  rw [frame]
  by_cases here : pid' = pid
  · subst here
    by_cases page : pageOf va' = pageOf va
    · exact Or.inl ⟨rfl, page⟩
    · have same : pteOf k' pid' va' = pteOf k pid' va' := by rw [ptes, if_neg page]
      refine Or.inr ⟨inside, same, fun equal => unmapped ⟨pid', inside, va', ?_, ?_⟩⟩
      · exact same ▸ leaf.1
      · exact same ▸ equal
  · have old := (only.hasSpace here).mp inside'
    have same := only.ptes pid' here old va'
    refine Or.inr ⟨old, same, fun equal => unmapped ⟨pid', old, va', ?_, ?_⟩⟩
    · exact same ▸ leaf.1
    · exact same ▸ equal

/-- A frame that no process mapped is mapped once after it was mapped by one of them. -/
theorem Only.mapped_once {pid va f perm a : ℕ} (only : Only S (· = pid) k own k' own') (flags : perm < 2 ^ 10)
    (unmapped : ¬ Mapped k f) (image : f ≠ trapSec) (inside : HasSpace k pid)
    (ptes : ∀ va', pteOf k' pid va' = if pageOf va' = pageOf va then f * 2 ^ 10 ||| perm ||| PTE_V
      else pteOf k pid va')
    (page : pageOf a = pageOf va) : MappedOnce trapSec k' pid a := by
  have entry : pteOf k' pid a = f * 2 ^ 10 ||| perm ||| PTE_V := by rw [ptes, if_pos page]
  have frame : frameOf (pteOf k' pid a) = f := by
    rw [entry]
    exact frameOf_flags flags
  refine ⟨?_, frame ▸ image, fun pid' inside' va' valid same => ?_⟩
  · rw [entry]
    exact has_valid_or _
  rw [frame] at same
  by_cases here : pid' = pid
  · subst here
    by_cases there : pageOf va' = pageOf va
    · exact ⟨rfl, there.trans page.symm⟩
    · rw [ptes, if_neg there] at valid same
      exact absurd ⟨pid', inside, va', valid, same⟩ unmapped
  · have old := (only.hasSpace here).mp inside'
    rw [only.ptes pid' here old va'] at valid same
    exact absurd ⟨pid', old, va', valid, same⟩ unmapped

/-- The fields of a process that neither the address space nor the invariant depends on. -/
structure Harmless (p q : Process) : Prop where
  pagetable : q.pagetable = p.pagetable
  zombie : p.status = .ZOMBIE → q.status = .ZOMBIE
  free : q.status = .FREE → p.status = .FREE
  regions : q.regions = p.regions
  total : q.totalMappedRegion = p.totalMappedRegion
  heap : q.userHeap = p.userHeap

theorem Good.setProc (good : Good S k own) {i : ℕ} {change : Process → Process}
    (harmless : Harmless (k.procs i) (change (k.procs i))) : Good S (k.setProc i change) own := by
  have only := good.space.onlySetProc harmless.pagetable harmless.zombie
  refine ⟨only.space, only.procsOk good.procs ?_⟩
  rintro pid rfl inside
  have ptes := pteOf_setProc harmless.pagetable pid
  rw [HasSpace, Kernel.setProc_procs_self] at inside
  rw [Kernel.setProc_procs_self]
  refine (good.procs pid ⟨inside.1, harmless.pagetable ▸ inside.2.1,
    fun zombie => inside.2.2 (harmless.zombie zombie)⟩).congr
    harmless.regions harmless.total harmless.heap harmless.free fun va => ?_
  rw [ptes]
  exact .refl _

theorem Exclusive.setProc (exclusive : Exclusive k) {i : ℕ} {change : Process → Process}
    (harmless : Harmless (k.procs i) (change (k.procs i))) : Exclusive (k.setProc i change) := by
  refine exclusive.congr fun pid va inside _ => ⟨?_, pteOf_setProc harmless.pagetable pid va⟩
  by_cases here : pid = i
  · subst here
    rw [HasSpace, Kernel.setProc_procs_self, harmless.pagetable] at inside
    exact ⟨inside.1, inside.2.1, fun zombie => inside.2.2 (harmless.zombie zombie)⟩
  · rwa [HasSpace, Kernel.setProc_procs_of_ne _ _ _ here] at inside

end

section

variable {p q : Process} {pte pte' : ℕ → ℕ} {va entry : ℕ}

/-- Entries that were valid are not touched by mapping an unmapped page. -/
private theorem still (unmapped : has (pte va) PTE_V = false)
    (ptes : ∀ va', pte' va' = if pageOf va' = pageOf va then entry else pte va')
    (same : ∀ a, pageOf a = pageOf va → pte a = pte va) {a : ℕ} (valid : has (pte a) PTE_V = true) :
    pte' a = pte a := by
  rw [ptes, if_neg ?_]
  intro page
  rw [same a page, unmapped] at valid
  exact absurd valid (by decide)

private theorem stack_high : STACK_PAGE < MAXVA := by decide

private theorem heap_next (aligned : va % PGSIZE = 0) (high : va ≤ STACK_PAGE) (apart : va ≠ STACK_PAGE) :
    (va + PGSIZE) % WORD = va + PGSIZE ∧ va + PGSIZE ≤ STACK_PAGE := by
  simp only [STACK_PAGE, USER_STACK_TOP, PGSIZE, WORD] at *
  omega

private theorem npages_next {n : ℕ} (pages : USER_FREE_ADDRESS_START + n * PGSIZE ≤ va)
    (high : va ≤ STACK_PAGE) :
    incr32 n = n + 1 := by
  have below : n < 2 ^ 31 := by
    simp only [STACK_PAGE, USER_STACK_TOP, PGSIZE] at *
    omega
  rw [incr32, Nat.mod_eq_of_lt]
  omega

private theorem next_above {a : ℕ} (aligned : va % PGSIZE = 0) (alignedA : a % PGSIZE = 0) (above : va ≤ a)
    (other : a ≠ va) : va + PGSIZE ≤ a := by
  simp only [PGSIZE] at *
  omega

/-- `sys_user_allocate_page` takes the last recorded page. -/
theorem ProcOk.pop (ok : ProcOk p pte) {n : ℕ} (count : p.userHeap.freePagesCount = n + 1)
    (last : p.userHeap.freePagesAddress n = va) (regions : q.regions = p.regions)
    (total : q.totalMappedRegion = p.totalMappedRegion)
    (heap : q.userHeap = { p.userHeap with freePagesCount := n }) (live : q.status ≠ .FREE)
    (unmapped : has (pte va) PTE_V = false)
    (ptes : ∀ va', pte' va' = if pageOf va' = pageOf va then entry else pte va')
    (same : ∀ a, pageOf a = pageOf va → pte a = pte va) : ProcOk q pte' := by
  have high : ∀ {a}, a < p.userHeap.heapTop → a < MAXVA := fun below => (ok.heap_below below).trans stack_high
  have mine := ok.heap.range n (by omega)
  have aligned := ok.heap.aligned n (by omega)
  rw [last] at mine aligned
  have fewer : ∀ {i}, i < q.userHeap.freePagesCount → i < n ∧ i < p.userHeap.freePagesCount :=
    fun {i} below => by
    rw [heap] at below
    exact ⟨below, by rw [count]; exact Nat.lt_succ_of_lt below⟩
  refine ⟨regions ▸ ok.fixed, total ▸ ok.total, ?_, ?_, ?_, ?_, ?_, ⟨?_, ?_, ?_, ?_, ?_⟩, ?_, ?_,
    fun free => absurd free live⟩
  · rw [regions, total]
    exact ok.unused
  · rw [regions, total, heap]
    intro i low below
    obtain ⟨type, single, alignedI, positive, small, apart, leaf, readable⟩ := ok.loaded i low below
    have kept := still unmapped ptes same leaf.1
    exact ⟨type, single, alignedI, positive, small, apart, kept ▸ leaf, kept ▸ readable⟩
  · rw [heap]
    exact ok.bottom
  · rw [heap]
    exact ok.top
  · rw [heap, regions]
    exact ok.heapPages
  · have bound := ok.heap.count
    rw [count] at bound
    rw [heap]
    exact (Nat.le_succ n).trans bound
  · intro i below
    rw [heap]
    exact ok.heap.aligned i (fewer below).2
  · intro i below
    rw [heap]
    exact ok.heap.range i (fewer below).2
  · intro i below
    have old := (fewer below).2
    rw [heap]
    change has (pte' (p.userHeap.freePagesAddress i)) PTE_V = false
    rw [ptes, if_neg ?_]
    · exact ok.heap.unmapped i old
    · intro page
      have equal := pageOf_injective (ok.heap.aligned i old) aligned (high (ok.heap.range i old).2)
        (high mine.2) page
      have index := ok.heap.distinct i old n (by omega) (equal.trans last.symm)
      exact absurd (fewer below).1 (by rw [index]; exact lt_irrefl n)
  · intro i below j below'
    rw [heap]
    exact ok.heap.distinct i (fewer below).2 j (fewer below').2
  · rw [still unmapped ptes same ok.stack.1]
    exact ok.stack
  · intro a leaf
    rw [UserPage, regions, total, heap]
    rw [ptes] at leaf
    split_ifs at leaf with page
    · exact Or.inr (Or.inl ⟨va, aligned, mine.1, mine.2, page⟩)
    · exact ok.covered a leaf

/-- `sys_user_allocate_page` enlarges the heap by a page. -/
theorem ProcOk.grow (ok : ProcOk p pte) (top : p.userHeap.heapTop = va) (none : p.userHeap.freePagesCount = 0)
    (regions : q.regions = Function.update p.regions 3
      { p.regions 3 with npages := incr32 (p.regions 3).npages })
    (total : q.totalMappedRegion = p.totalMappedRegion)
    (heap : q.userHeap = { p.userHeap with heapTop := (va + PGSIZE) % WORD }) (live : q.status ≠ .FREE)
    (unmapped : has (pte va) PTE_V = false) (ptes : ∀ va', pte' va' = if pageOf va' = pageOf va
      then entry else pte va')
    (same : ∀ a, pageOf a = pageOf va → pte a = pte va) : ProcOk q pte' := by
  obtain ⟨alignedTop, lowTop, highTop⟩ := ok.top
  rw [top] at alignedTop lowTop highTop
  have apart : va ≠ STACK_PAGE := by
    rintro rfl
    rw [ok.stack.1] at unmapped
    exact absurd unmapped (by decide)
  have next := heap_next alignedTop highTop apart
  have pages := ok.heapPages
  rw [top] at pages
  rw [npages_next pages highTop] at regions
  rw [next.1] at heap
  have empty : ∀ {i}, ¬ i < q.userHeap.freePagesCount := fun {i} below => by
    rw [heap] at below
    change i < p.userHeap.freePagesCount at below
    rw [none] at below
    exact Nat.not_lt_zero i below
  have region : ∀ i, i ≠ 3 → q.regions i = p.regions i := fun i other => by
    rw [regions]
    exact Function.update_of_ne other _ _
  have region3 : q.regions 3 = { p.regions 3 with npages := (p.regions 3).npages + 1 } := by
    rw [regions, Function.update_self]
  have four := ok.total.1
  refine ⟨⟨?_, ?_, ?_, ?_⟩, total ▸ ok.total, ?_, ?_, ?_, ?_, ?_,
    ⟨?_, fun i below => absurd below empty, fun i below => absurd below empty,
      fun i below => absurd below empty, fun i below => absurd below empty⟩, ?_, ?_,
        fun free => absurd free live⟩
  · rw [region 0 (by decide)]
    exact ok.fixed.stack
  · rw [region 1 (by decide)]
    exact ok.fixed.context
  · rw [region 2 (by decide)]
    exact ok.fixed.system
  · rw [region3]
    exact ok.fixed.heap
  · intro i high
    rw [total] at high
    rw [region i (by omega)]
    exact ok.unused i high
  · intro i low below
    rw [total] at below
    obtain ⟨type, single, alignedI, positive, small, apartI, leaf, readable⟩ := ok.loaded i low below
    have kept := still unmapped ptes same leaf.1
    have other : (p.regions i).va ≠ va := fun equal => by
      rw [equal, UserLeaf, unmapped] at leaf
      exact absurd leaf.1 (by decide)
    rw [region i (by omega), heap]
    refine ⟨type, single, alignedI, positive, small, apartI.imp_right fun above => ?_, kept ▸ leaf,
      kept ▸ readable⟩
    rw [top] at above
    exact next_above alignedTop alignedI above other
  · rw [heap]
    exact ok.bottom
  · rw [heap]
    exact ⟨(Nat.add_mod_right _ _).trans alignedTop, lowTop.trans (Nat.le_add_right _ _), next.2⟩
  · rw [region3, heap]
    change _ + ((p.regions 3).npages + 1) * PGSIZE ≤ va + PGSIZE
    rw [Nat.add_mul, Nat.one_mul, ← Nat.add_assoc]
    exact Nat.add_le_add_right pages _
  · rw [heap]
    exact ok.heap.count
  · rw [still unmapped ptes same ok.stack.1]
    exact ok.stack
  · intro a leaf
    rw [UserPage, total, heap]
    rw [ptes] at leaf
    split_ifs at leaf with page
    · refine Or.inr (Or.inl ⟨va, alignedTop, ?_, Nat.lt_add_of_pos_right (by decide), page⟩)
      change p.userHeap.heapBottom ≤ va
      rw [ok.bottom]
      exact lowTop
    · rcases ok.covered a leaf with stack | ⟨b, alignedB, lowB, highB, pageB⟩ | ⟨i, low, below, pageI⟩
      · exact Or.inl stack
      · rw [top] at highB
        exact Or.inr (Or.inl ⟨b, alignedB, lowB, highB.trans_le (Nat.le_add_right _ _), pageB⟩)
      · refine Or.inr (Or.inr ⟨i, low, below, ?_⟩)
        rw [region i (by omega)]
        exact pageI

end

/-- A field of `n` bytes. -/
private theorem field_lt (file : HostFile) (off n : ℕ) : file.field off n < 256 ^ n := by
  induction n generalizing off with
  | zero => exact Nat.one_pos
  | succ n ih =>
    have byte := (file.byte off).toNat_lt
    have rest := ih (off + 1)
    rw [HostFile.field, Nat.pow_succ]
    omega

theorem vaddr_word (file : HostFile) (off : ℕ) : (file.progHeader off).vaddr < WORD := by
  have small := field_lt file (off + 16) 8
  exact small.trans_le (by decide)

section

variable {p q : Process} {pte pte' : ℕ → ℕ} {va entry : ℕ}

/-- The regions in use are those below the counter. -/
private theorem ProcOk.region_ne_zero (ok : ProcOk p pte) {i : ℕ} (below : i < p.totalMappedRegion) :
    (p.regions i).va ≠ 0 := by
  match i with
  | 0 =>
    rw [ok.fixed.stack]
    decide
  | 1 => exact ok.fixed.context.2.2
  | 2 => exact ok.fixed.system.2.2
  | 3 =>
    rw [ok.fixed.heap.2]
    decide
  | i + 4 => exact (ok.loaded (i + 4) (by omega) below).low.ne'

theorem ProcOk.freeRegion (ok : ProcOk p pte) (room : p.totalMappedRegion < REGION_SLOTS) :
    freeRegion p.regions = p.totalMappedRegion := by
  have found : (List.range REGION_SLOTS).find? (fun j => (p.regions j).va = 0) = some p.totalMappedRegion := by
    rw [List.find?_range_eq_some]
    refine ⟨by simpa using ok.unused _ le_rfl, List.mem_range.mpr room, fun j below => ?_⟩
    simpa using ok.region_ne_zero below
  rw [Model.freeRegion, found]
  rfl

/-- `elf_load` registers a segment of a process that has not run. -/
theorem ProcOk.load (ok : ProcOk p pte) {type : SegmentType} (fresh : p.status = .FREE)
    (room : p.totalMappedRegion < REGION_SLOTS) (known : type = .CODE_SEGMENT ∨ type = .DATA_SEGMENT)
    (aligned : va % PGSIZE = 0) (low : 0 < va) (high : va < MAXVA) (access : UserLeaf entry ∧
      has entry PTE_R = true)
    (regions : q.regions = Function.update p.regions p.totalMappedRegion ⟨va, 1, type⟩)
    (total : q.totalMappedRegion = p.totalMappedRegion + 1) (heap : q.userHeap = p.userHeap)
    (unmapped : has (pte va) PTE_V = false) (ptes : ∀ va', pte' va' = if pageOf va' = pageOf va
      then entry else pte va')
    (same : ∀ a, pageOf a = pageOf va → pte a = pte va) : ProcOk q pte' := by
  have four := ok.total.1
  obtain ⟨young, none⟩ := ok.young fresh
  have region : ∀ i, i ≠ p.totalMappedRegion → q.regions i = p.regions i := fun i other => by
    rw [regions]
    exact Function.update_of_ne other _ _
  have last : q.regions p.totalMappedRegion = ⟨va, 1, type⟩ := by rw [regions, Function.update_self]
  have empty : ∀ {i}, ¬ i < q.userHeap.freePagesCount := fun {i} below => by
    rw [heap, none] at below
    exact Nat.not_lt_zero i below
  refine ⟨⟨?_, ?_, ?_, ?_⟩, by rw [total]; exact ⟨by omega, room⟩, ?_, ?_, heap ▸ ok.bottom, heap ▸ ok.top, ?_,
    ⟨heap ▸ ok.heap.count, fun i below => absurd below empty, fun i below => absurd below empty,
      fun i below => absurd below empty, fun i below => absurd below empty⟩, ?_, ?_,
        fun _ => heap ▸ ⟨young, none⟩⟩
  · rw [region 0 (by omega)]
    exact ok.fixed.stack
  · rw [region 1 (by omega)]
    exact ok.fixed.context
  · rw [region 2 (by omega)]
    exact ok.fixed.system
  · rw [region 3 (by omega)]
    exact ok.fixed.heap
  · intro i above
    rw [total] at above
    rw [region i (by omega)]
    exact ok.unused i (by omega)
  · intro i lowI below
    rw [total] at below
    by_cases here : i = p.totalMappedRegion
    · have leaf : pte' va = entry := by rw [ptes, if_pos rfl]
      rw [here, last, heap]
      refine ⟨known, rfl, aligned, low, high, ?_, leaf.symm ▸ access.1, leaf.symm ▸ access.2⟩
      rw [ok.bottom, young]
      exact lt_or_ge _ _
    · obtain ⟨typeI, single, alignedI, positive, small, apart, leaf, readable⟩ := ok.loaded i lowI (by omega)
      have kept := still unmapped ptes same leaf.1
      rw [region i here, heap]
      exact ⟨typeI, single, alignedI, positive, small, apart, kept ▸ leaf, kept ▸ readable⟩
  · rw [region 3 (by omega), heap]
    exact ok.heapPages
  · rw [still unmapped ptes same ok.stack.1]
    exact ok.stack
  · intro a leaf
    rw [UserPage, heap, total]
    rw [ptes] at leaf
    split_ifs at leaf with page
    · refine Or.inr (Or.inr ⟨p.totalMappedRegion, four, Nat.lt_succ_self _, ?_⟩)
      rw [last]
      exact page
    · rcases ok.covered a leaf with stack | inHeap | ⟨i, lowI, below, pageI⟩
      · exact Or.inl stack
      · exact Or.inr (Or.inl inHeap)
      · refine Or.inr (Or.inr ⟨i, lowI, Nat.lt_succ_of_lt below, ?_⟩)
        rw [region i (by omega)]
        exact pageI

end

section

variable {p q : Process} {pte pte' : ℕ → ℕ} {va : ℕ}

/-- The condition under which `sys_user_free_page(va)` keeps the heap manager intact. -/
structure FreeOk (h : HeapManager) (va : ℕ) : Prop where
  room : h.freePagesCount < MAX_HEAP_PAGES
  aligned : va % PGSIZE = 0
  low : h.heapBottom ≤ va
  high : va < h.heapTop
  fresh : ∀ i < h.freePagesCount, h.freePagesAddress i ≠ va

instance (h : HeapManager) (va : ℕ) : Decidable (FreeOk h va) :=
  decidable_of_iff (h.freePagesCount < MAX_HEAP_PAGES ∧ va % PGSIZE = 0 ∧ h.heapBottom ≤ va ∧ va < h.heapTop ∧
      ∀ i < h.freePagesCount, h.freePagesAddress i ≠ va)
    ⟨fun ok => ⟨ok.1, ok.2.1, ok.2.2.1, ok.2.2.2.1, ok.2.2.2.2⟩,
      fun ok => ⟨ok.room, ok.aligned, ok.low, ok.high, ok.fresh⟩⟩

/-- `sys_user_free_page` records a page of the heap. -/
theorem ProcOk.push (ok : ProcOk p pte) (free : FreeOk p.userHeap va) (live : q.status ≠ .FREE)
    (regions : q.regions = p.regions) (total : q.totalMappedRegion = p.totalMappedRegion)
    (heap : q.userHeap = { p.userHeap with
      freePagesAddress := Function.update p.userHeap.freePagesAddress p.userHeap.freePagesCount va
      freePagesCount := p.userHeap.freePagesCount + 1 })
    (vacant : has (pte' va) PTE_V = false) (ptes : ∀ a, pageOf a ≠ pageOf va → pte' a = pte a)
    (same : ∀ a, pageOf a = pageOf va → pte' a = pte' va) : ProcOk q pte' := by
  have stackHigh : STACK_PAGE < MAXVA := by decide
  have below := ok.heap_below free.high
  have high : va < MAXVA := below.trans stackHigh
  have old : ∀ i, i < p.userHeap.freePagesCount →
      q.userHeap.freePagesAddress i = p.userHeap.freePagesAddress i :=
    fun i below => by
      rw [heap]
      exact Function.update_of_ne (Nat.ne_of_lt below) _ _
  have new : q.userHeap.freePagesAddress p.userHeap.freePagesCount = va := by
    rw [heap]
    exact Function.update_self ..
  have split : ∀ i, i < q.userHeap.freePagesCount → i < p.userHeap.freePagesCount ∨
      i = p.userHeap.freePagesCount :=
    fun i below => by
      rw [heap] at below
      exact Nat.lt_or_eq_of_le (Nat.le_of_lt_succ below)
  have top : q.userHeap.heapTop = p.userHeap.heapTop := by rw [heap]
  have bottom : q.userHeap.heapBottom = p.userHeap.heapBottom := by rw [heap]
  have other : ∀ a, a % PGSIZE = 0 → a < MAXVA → a ≠ va → pte' a = pte a := fun a aligned highA apart =>
    ptes a fun page => apart (pageOf_injective aligned free.aligned highA high page)
  refine ⟨regions ▸ ok.fixed, total ▸ ok.total, ?_, ?_, ?_, ?_, ?_, ?_, ?_, ?_, fun young => absurd young live⟩
  · rw [regions, total]
    exact ok.unused
  · rw [regions, total, heap]
    intro i low belowI
    obtain ⟨type, single, aligned, positive, small, apart, leaf, readable⟩ := ok.loaded i low belowI
    have kept := other _ aligned small fun equal => by
      rw [equal] at apart
      exact apart.elim (Nat.not_lt.mpr free.low) (Nat.not_le.mpr free.high)
    exact ⟨type, single, aligned, positive, small, apart, kept ▸ leaf, kept ▸ readable⟩
  · rw [heap]
    exact ok.bottom
  · rw [heap]
    exact ok.top
  · rw [heap, regions]
    exact ok.heapPages
  · refine ⟨?_, ?_, ?_, ?_, ?_⟩
    · rw [heap]
      exact free.room
    · intro i below
      rcases split i below with earlier | rfl
      · rw [old i earlier]
        exact ok.heap.aligned i earlier
      · rw [new]
        exact free.aligned
    · intro i below
      rw [top, bottom]
      rcases split i below with earlier | rfl
      · rw [old i earlier]
        exact ok.heap.range i earlier
      · rw [new]
        exact ⟨free.low, free.high⟩
    · intro i below
      rcases split i below with earlier | rfl
      · rw [old i earlier, other _ (ok.heap.aligned i earlier)
          ((ok.heap_below (ok.heap.range i earlier).2).trans stackHigh) (free.fresh i earlier)]
        exact ok.heap.unmapped i earlier
      · rw [new]
        exact vacant
    · intro i below j below' equal
      rcases split i below with earlier | rfl
      · rw [old i earlier] at equal
        rcases split j below' with earlier' | rfl
        · rw [old j earlier'] at equal
          exact ok.heap.distinct i earlier j earlier' equal
        · rw [new] at equal
          exact absurd equal (free.fresh i earlier)
      · rw [new] at equal
        rcases split j below' with earlier' | rfl
        · rw [old j earlier'] at equal
          exact absurd equal.symm (free.fresh j earlier')
        · rfl
  · rw [other _ (by decide) stackHigh (Nat.ne_of_gt below)]
    exact ok.stack
  · intro a leaf
    rw [UserPage, regions, total, heap]
    refine ok.covered a ?_
    rw [← ptes a ?_]
    · exact leaf
    · intro page
      rw [same a page, UserLeaf, vacant] at leaf
      exact absurd leaf.1 (by decide)

end

end Pke.Proofs
