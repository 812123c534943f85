import Pke.Model.Buddy

/-! # Which descriptors the buddy functions access

`pages` has `nr_pages` elements and no index into it is checked. The functions below follow the bodies of
`Pke.Model.Buddy` access by access and list the index of every descriptor whose status word or list
node is read or written. A list pointer may also lead to a sentinel, which lies in `main_buddy`.
-/

namespace Pke.Model

open Pke.Lib

/-- The descriptor that a list pointer leads into, if any. -/
def Node.descriptor : Node → List ℕ
  | .page pfn => [pfn]
  | .area _ => []

namespace Buddy

/-- `__list_add(&free_area[order], &p->node, &p->node)` writes `p->node` and the old first node. -/
def listAddTouched (b : Buddy) (order pfn : ℕ) : List ℕ := pfn :: (b.links.next (.area order)).descriptor

/-- `__list_del(&p->node)` reads `p->node` and writes both neighbours. -/
def listDelTouched (b : Buddy) (pfn : ℕ) : List ℕ :=
  pfn :: (b.links.prev (.page pfn)).descriptor ++ (b.links.next (.page pfn)).descriptor

end Buddy

def buddyInitLoopTouched (stop : ℕ) : ℕ → ℕ → Buddy → List ℕ
  | 0, _, _ => []
  | fuel + 1, curr, b =>
    if curr < stop then
      let order := initOrder curr stop
      let pfn := ADDR_TO_PFN curr
      let b := b.setPage pfn fun p => { p with alloc := 0, isHead := true, isFree := true, order := order % 32 }
      pfn :: b.listAddTouched order pfn ++
        buddyInitLoopTouched stop fuel (curr + 2 ^ order * PGSIZE) (b.listAdd order pfn)
    else []

def buddySystemInitTouched (start stop : ℕ) (b : Buddy) : List ℕ :=
  let b := { b with links := initAreas b.links }
  let curr := ROUNDUP start PGSIZE
  let last := ROUNDDOWN stop PGSIZE
  buddyInitLoopTouched last ((last - curr) / PGSIZE) curr b

/-- An iteration that breaks has read the status of the buddy. -/
def mergeLoopTouched : ℕ → ℕ → ℕ → Buddy → List ℕ
  | 0, _, _, _ => []
  | fuel + 1, pfn, order, b =>
    let buddy := pfn ^^^ 2 ^ order
    let status := b.pages buddy
    if status.order ≠ order ∨ status.isFree ≠ true ∨ status.isHead ≠ true then [buddy]
    else
      let unlinked := b.listDel buddy
      let cleared := unlinked.setPage buddy fun s => { s with isFree := false, isHead := false }
      let pfn := pfn &&& (WORD - 1 - 2 ^ order)
      let grown := cleared.setPage pfn fun s => { s with order := (order + 1) % 32 }
      buddy :: b.listDelTouched buddy ++ pfn :: mergeLoopTouched fuel pfn (order + 1) grown

def buddyMergeInnerTouched (pfn : ℕ) (b : Buddy) : List ℕ :=
  let order := (b.pages pfn).order
  let cleared := b.setPage pfn fun p => { p with isFree := false, isHead := false, alloc := 0 }
  let (head, last, merged) := mergeLoop (MAX_ORDER - 1 - order) pfn order cleared
  pfn :: mergeLoopTouched (MAX_ORDER - 1 - order) pfn order cleared ++ head :: merged.listAddTouched last head

end Pke.Model
