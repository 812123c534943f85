import Pke.Model.Pmm
import Pke.Model.ListCalls

/-! # Several harts in the buddy system

What `buddy_lock` protects is one step for every other hart. `buddy_alloc` writes the status of the block it
took after it released the lock, so `is_free = 0` and `alloc = 1` are steps of their own, and any hart can run
between them.
-/

namespace Pke.Model

open Pke.Lib

/-- `buddy_alloc` up to its `lock_release`. -/
def allocLocked (order : ℕ) : Exec Pmm ℕ := do
  kassert (order < MAX_ORDER) "likely(order >= 0 && order < MAX_ORDER)"
  lockAcquire
  match buddyTake order (← get).buddy with
  | some (p, b) =>
    onBuddy fun _ => b
    lockRelease
    return p
  | none =>
    lockRelease
    throw (.panic "buddy_alloc : Out of required size of memory!\n")

/-- `p->status.is_free = 0`. -/
def clearFree (pfn : ℕ) (b : Buddy) : Buddy := b.setPage pfn fun p => { p with isFree := false }

/-- `p->status.alloc = 1`. -/
def setAlloc (pfn : ℕ) (b : Buddy) : Buddy := b.setPage pfn fun p => { p with alloc := 1 }

/-- Where a hart stands: outside of both functions, or before one of the two status writes. -/
inductive HartPc where
  | idle
  | popped (pfn order : ℕ)
  | cleared (pfn order : ℕ)
deriving DecidableEq, Repr

/-- A hart with the blocks that `buddy_alloc` returned to it, as address and order. -/
structure BuddyHart where
  pc : HartPc
  held : List (ℕ × ℕ)
deriving DecidableEq, Repr

structure Harts (n : ℕ) where
  pmm : Pmm
  harts : Fin n → BuddyHart

/-- The steps of a hart: the locked part of `buddy_alloc`, its two status writes, and `buddy_free`. -/
inductive HartOp where
  | take (order : ℕ)
  | clear
  | tag
  | free (addr : ℕ)
deriving DecidableEq, Repr

namespace Harts

variable {n : ℕ}

def set (s : Harts n) (h : Fin n) (pmm : Pmm) (hart : BuddyHart) : Harts n :=
  ⟨pmm, Function.update s.harts h hart⟩

/-- One step of hart `h`. A hart frees only blocks that it holds; a step that stops the machine is none. -/
def step (s : Harts n) : Fin n × HartOp → Option (Harts n)
  | (h, .take order) =>
    match (s.harts h).pc, allocLocked order s.pmm with
    | .idle, .ok p pmm => some (s.set h pmm { s.harts h with pc := .popped p order })
    | _, _ => none
  | (h, .clear) =>
    match (s.harts h).pc with
    | .popped p order =>
      some (s.set h { s.pmm with buddy := clearFree p s.pmm.buddy } { s.harts h with pc := .cleared p order })
    | _ => none
  | (h, .tag) =>
    match (s.harts h).pc with
    | .cleared p order =>
      some (s.set h { s.pmm with buddy := setAlloc p s.pmm.buddy }
        ⟨.idle, (PFN_TO_ADDR p, order) :: (s.harts h).held⟩)
    | _ => none
  | (h, .free addr) =>
    match (s.harts h).pc, (s.harts h).held.find? (fun e => e.1 = addr), buddyFree addr s.pmm with
    | .idle, some e, .ok _ pmm => some (s.set h pmm { s.harts h with held := (s.harts h).held.erase e })
    | _, _, _ => none

end Harts

/-- The calls of `__list_del` in a step. -/
def Harts.dels {n : ℕ} (s : Harts n) : HartOp → List (Links Node × Node)
  | .take order => deletions s.pmm.buddy.links (takeCalls order s.pmm.buddy)
  | .free addr => deletions s.pmm.buddy.links (freeCalls (ADDR_TO_PFN addr) s.pmm.buddy)
  | .clear => []
  | .tag => []

end Pke.Model
