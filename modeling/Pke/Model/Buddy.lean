import Pke.Lib.Ring
import Pke.Model.Machine

/-! # The buddy system of `pmm.c`

Descriptors are indexed by frame number (PFN, relative to `DRAM_BASE`), and the free lists are the
eleven rings headed by the sentinels of `free_area`. The functions below are the bodies that run
while `buddy_lock` is held; the locked entry points are in `Pke.Model.Pmm`. The descriptor array is
a total function: an index past `nr_pages` reads whatever memory follows the array.
-/

namespace Pke.Model

open Pke.Lib

/-- The status word of a page descriptor. `order` has five bits and `alloc` three. -/
@[ext] structure Page where
  isFree : Bool
  isHead : Bool
  order : ℕ
  alloc : ℕ
deriving DecidableEq, Repr

/-- What a free-list pointer can point to: a sentinel of `free_area` or the node of a descriptor. -/
inductive Node where
  | area (order : ℕ)
  | page (pfn : ℕ)
deriving DecidableEq, Repr

/-- `NODE_TO_PAGE` and `PAGE_TO_PFN`. A sentinel is no descriptor; the source leaves it to the
callers of `__list_pop` never to pop an empty list. -/
def Node.pfn : Node → ℕ
  | .page pfn => pfn
  | .area _ => 0

/-- `pages` and `main_buddy.free_area`. -/
structure Buddy where
  pages : ℕ → Page
  links : Links Node

namespace Buddy

def setPage (b : Buddy) (pfn : ℕ) (change : Page → Page) : Buddy :=
  { b with pages := Function.update b.pages pfn (change (b.pages pfn)) }

/-- `__list_add(&free_area[order], &p->node, &p->node)`. -/
def listAdd (b : Buddy) (order pfn : ℕ) : Buddy :=
  { b with links := b.links.add (.area order) (.page pfn) (.page pfn) }

def listDel (b : Buddy) (pfn : ℕ) : Buddy :=
  { b with links := b.links.del (.page pfn) }

/-- The test `free_area[i].next == &free_area[i]`. -/
def areaEmpty (b : Buddy) (order : ℕ) : Bool := b.links.next (.area order) = .area order

end Buddy

/-- The difference is one of 64-bit words: an address below `DRAM_BASE` gives an index far beyond
the array. -/
def ADDR_TO_PFN (addr : ℕ) : ℕ :=
  (if DRAM_BASE ≤ addr then addr - DRAM_BASE else addr + WORD - DRAM_BASE) / PGSIZE

theorem ADDR_TO_PFN_ram {addr : ℕ} (ram : DRAM_BASE ≤ addr) :
    ADDR_TO_PFN addr = (addr - DRAM_BASE) / PGSIZE := by
  rw [ADDR_TO_PFN, if_pos ram]

def PFN_TO_ADDR (pfn : ℕ) : ℕ := pfn * PGSIZE + DRAM_BASE

theorem addr_pfn (pfn : ℕ) : ADDR_TO_PFN (PFN_TO_ADDR pfn) = pfn := by
  rw [PFN_TO_ADDR, ADDR_TO_PFN_ram (Nat.le_add_left ..), Nat.add_sub_cancel]
  exact Nat.mul_div_cancel _ (by decide)

/-- The order of the next block of the greedy partition: limited by the alignment of the absolute
page number, by the remaining pages, and by `MAX_ORDER`. -/
def initOrder (curr stop : ℕ) : ℕ :=
  let alignOrder := ctzll (curr / PGSIZE)
  let limitOrder := 63 - clzll ((stop - curr) / PGSIZE)
  let order := if alignOrder < limitOrder then alignOrder else limitOrder
  if order ≥ MAX_ORDER then MAX_ORDER - 1 else order

/-- The loop of `buddy_system_init`. Every iteration takes at least one page, so the number of
remaining pages is enough fuel. -/
def buddyInitLoop (stop : ℕ) : ℕ → ℕ → Buddy → Buddy
  | 0, _, b => b
  | fuel + 1, curr, b =>
    if curr < stop then
      let order := initOrder curr stop
      let pfn := ADDR_TO_PFN curr
      let b := b.setPage pfn fun p => { p with alloc := 0, isHead := true, isFree := true, order := order % 32 }
      let b := b.listAdd order pfn
      buddyInitLoop stop fuel (curr + 2 ^ order * PGSIZE) b
    else b

/-- Every sentinel of `free_area` is looped to itself. -/
def initAreas (l : Links Node) : Links Node :=
  (List.range MAX_ORDER).foldl (fun l i => (l.setNext (.area i) (.area i)).setPrev (.area i) (.area i)) l

def buddySystemInit (start stop : ℕ) (b : Buddy) : Buddy :=
  let b := { b with links := initAreas b.links }
  let curr := ROUNDUP start PGSIZE
  let last := ROUNDDOWN stop PGSIZE
  buddyInitLoop last ((last - curr) / PGSIZE) curr b

/-- One iteration of `buddy_split`: the first block of order `i` becomes two of order `i - 1`. -/
def splitStep (i : ℕ) (b : Buddy) : Buddy :=
  let (node, links) := b.links.pop (.area i)
  let p := node.pfn
  let bud := p + 2 ^ (i - 1)
  let b := ({ b with links := links } : Buddy).setPage bud fun _ =>
    { alloc := 0, isFree := true, isHead := true, order := (i - 1) % 32 }
  let b := b.listAdd (i - 1) bud
  let b := b.setPage p fun s => { s with order := (i - 1) % 32 }
  { b with links := b.links.add (.area (i - 1)) node node }

def buddySplit : ℕ → ℕ → Buddy → Buddy
  | 0, _, b => b
  | i + 1, target, b => if i + 1 > target then buddySplit i target (splitStep (i + 1) b) else b

/-- The scan of `buddy_alloc` for the first nonempty list of order at least `order`. -/
def findArea (b : Buddy) (order : ℕ) : Option ℕ :=
  (List.range' order (MAX_ORDER - order)).find? fun i => !b.areaEmpty i

/-- The part of `buddy_alloc` between `lock_acquire` and `lock_release`. -/
def buddyTake (order : ℕ) (b : Buddy) : Option (ℕ × Buddy) :=
  (findArea b order).map fun i =>
    let b := if i > order then buddySplit i order b else b
    let (node, links) := b.links.pop (.area order)
    (node.pfn, { b with links := links })

/-- The status writes of `buddy_alloc` after `lock_release`. -/
def markTaken (pfn : ℕ) (b : Buddy) : Buddy :=
  b.setPage pfn fun p => { p with isFree := false, alloc := 1 }

/-- The loop of `__buddy_merge_inner`. The fuel is `MAX_ORDER - 1 - order`, so it is positive
exactly when the guard `order < MAX_ORDER - 1` holds. -/
def mergeLoop : ℕ → ℕ → ℕ → Buddy → ℕ × ℕ × Buddy
  | 0, pfn, order, b => (pfn, order, b)
  | fuel + 1, pfn, order, b =>
    let buddy := pfn ^^^ 2 ^ order
    let status := b.pages buddy
    if status.order ≠ order ∨ status.isFree ≠ true ∨ status.isHead ≠ true then (pfn, order, b)
    else
      let b := b.listDel buddy
      let b := b.setPage buddy fun s => { s with isFree := false, isHead := false }
      let pfn := pfn &&& (WORD - 1 - 2 ^ order)
      let b := b.setPage pfn fun s => { s with order := (order + 1) % 32 }
      mergeLoop fuel pfn (order + 1) b

/-- `__buddy_merge_inner`. -/
def buddyMergeInner (pfn : ℕ) (b : Buddy) : Buddy :=
  let order := (b.pages pfn).order
  let b := b.setPage pfn fun p => { p with isFree := false, isHead := false, alloc := 0 }
  let (pfn, order, b) := mergeLoop (MAX_ORDER - 1 - order) pfn order b
  let b := b.setPage pfn fun p => { p with isFree := true, isHead := true, alloc := 0 }
  b.listAdd order pfn

end Pke.Model
