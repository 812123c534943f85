import Pke.Model.Buddy

/-! # The calls on the free lists

The functions of the buddy system touch the pointers of `free_area` and of the descriptors only
through `__list_add`, `__list_pop` and `__list_del`. The functions here list these calls in their
order, with the nodes that they are made on.
-/

namespace Pke.Model

open Pke.Lib

/-- `__list_add` of one node at a sentinel, `__list_pop` with the node that it returned, and `__list_del`. -/
inductive ListCall where
  | add (order : ℕ) (node : Node)
  | pop (order : ℕ) (node : Node)
  | del (node : Node)
deriving DecidableEq, Repr

/-- What a call does to the pointers. -/
def ListCall.Performs (l : Links Node) : ListCall → Links Node → Prop
  | .add order node, l' => l.add (.area order) node node = l'
  | .pop order node, l' => l.pop (.area order) = (node, l')
  | .del node, l' => l.del node = l'

/-- The calls of `__list_del` among them, to which `__list_pop` adds one on the first node: the
pointers at that moment, and the node. -/
def deletions : Links Node → List ListCall → List (Links Node × Node)
  | _, [] => []
  | l, .add order node :: calls => deletions (l.add (.area order) node node) calls
  | l, .pop order node :: calls => (l, node) :: deletions (l.pop (.area order)).2 calls
  | l, .del node :: calls => (l, node) :: deletions (l.del node) calls

/-- The calls in the loop of `buddy_system_init`. -/
def initLoopCalls (stop : ℕ) : ℕ → ℕ → List ListCall
  | 0, _ => []
  | fuel + 1, curr =>
    if curr < stop then
      let order := initOrder curr stop
      .add order (.page (ADDR_TO_PFN curr)) :: initLoopCalls stop fuel (curr + 2 ^ order * PGSIZE)
    else []

/-- The calls in `buddy_system_init`, after the sentinels were looped. -/
def initCalls (start stop : ℕ) : List ListCall :=
  let curr := ROUNDUP start PGSIZE
  let last := ROUNDDOWN stop PGSIZE
  initLoopCalls last ((last - curr) / PGSIZE) curr

/-- The calls in `buddy_split`: a block leaves its list, and its halves enter the list below. -/
def splitCalls : ℕ → ℕ → Buddy → List ListCall
  | 0, _, _ => []
  | i + 1, target, b =>
    if i + 1 > target then
      let node := b.links.next (.area (i + 1))
      .pop (i + 1) node :: .add i (.page (node.pfn + 2 ^ i)) :: .add i node ::
        splitCalls i target (splitStep (i + 1) b)
    else []

/-- The calls in `buddy_alloc`. -/
def takeCalls (order : ℕ) (b : Buddy) : List ListCall :=
  match findArea b order with
  | some i => splitCalls i order b ++ [.pop order ((buddySplit i order b).links.next (.area order))]
  | none => []

/-- The calls in the loop of `__buddy_merge_inner` and behind it. -/
def mergeCalls : ℕ → ℕ → ℕ → Buddy → List ListCall
  | 0, pfn, order, _ => [.add order (.page pfn)]
  | fuel + 1, pfn, order, b =>
    let buddy := pfn ^^^ 2 ^ order
    let status := b.pages buddy
    if status.order ≠ order ∨ status.isFree ≠ true ∨ status.isHead ≠ true then
      [.add order (.page pfn)]
    else
      let rest := (b.listDel buddy).setPage buddy fun s => { s with isFree := false, isHead := false }
      let next := pfn &&& (WORD - 1 - 2 ^ order)
      .del (.page buddy) ::
        mergeCalls fuel next (order + 1) (rest.setPage next fun s => { s with order := (order + 1) % 32 })

/-- The calls in `__buddy_merge_inner`. -/
def freeCalls (pfn : ℕ) (b : Buddy) : List ListCall :=
  let order := (b.pages pfn).order
  mergeCalls (MAX_ORDER - 1 - order) pfn order
    (b.setPage pfn fun p => { p with isFree := false, isHead := false, alloc := 0 })

end Pke.Model
