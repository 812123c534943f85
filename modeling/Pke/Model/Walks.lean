import Pke.Model.Vmm

/-! # Several harts on one page directory

Each hart runs `page_walk(dir, va, 0, 1)` and then the rest of the loop body of `map_pages` for one
page. There is no lock: every load of an entry, the `atomic_cas_d`, the `memset` of a new table and
the store of the leaf entry are steps of their own. `alloc_page` is any page that is not handed out
at the moment, with any contents. `log` is a history variable (newest first) that no step reads.
-/

namespace Pke.Model

/-- Where a hart stands. In the loop of `page_walk`, `pt` is the table of the current level and
`pte` its entry. -/
inductive WalkPc where
  | idle
  /-- The test `*pte & PTE_V` of `page_walk`. -/
  | test (level pt : ℕ)
  /-- `pt = PTE2PA(*pte)`, after the test or after a lost race. -/
  | follow (level pt : ℕ)
  /-- The call of `alloc_page`. -/
  | grow (level pt : ℕ)
  | cas (level pt page : ℕ)
  /-- The race is lost: `pfree(page)`. -/
  | drop (level pt page : ℕ)
  /-- The race is won: `memset(page, 0, PGSIZE)`. -/
  | wipe (level pt page : ℕ)
  /-- `page_walk` returned: the test `*pte & PTE_V` of `map_pages`. -/
  | check (pt : ℕ)
  | store (pt : ℕ)
  | halted
deriving DecidableEq, Repr

/-- A hart with its arguments: the address and the word for the leaf entry. -/
structure Walker where
  pc : WalkPc
  va : ℕ
  pte : ℕ
deriving DecidableEq, Repr

/-- What the history variable records of a hart: pages from and to `alloc_page` and `pfree`, the
tables it put into a directory entry, what `page_walk` returned for an address, and its stores to
leaf entries. -/
inductive WalkEvent where
  | alloc (page : ℕ)
  | release (page : ℕ)
  | publish (slot : Slot) (page : ℕ)
  | arrive (va : ℕ) (slot : Slot)
  | stored (slot : Slot) (pte : ℕ)
deriving DecidableEq, Repr

/-- The memory by pages, the pages that are in use (tables or otherwise), and the harts. -/
structure Walks (n : ℕ) where
  mem : ℕ → ℕ → ℕ
  out : List ℕ
  walkers : Fin n → Walker
  log : List (Fin n × WalkEvent)

/-- The steps of a hart: it is given an address, a page and a permission; it gets a page from
`alloc_page`; or it does what its program counter says. -/
inductive WalkOp where
  | start (va pa perm : ℕ)
  | alloc (page : ℕ) (content : ℕ → ℕ)
  | go

namespace Walks

variable {n : ℕ}

def setWalker (s : Walks n) (h : Fin n) (w : Walker) : Walks n :=
  { s with walkers := Function.update s.walkers h w }

def setWord (s : Walks n) (slot : Slot) (word : ℕ) : Walks n :=
  { s with mem := Function.update s.mem slot.1 (Function.update (s.mem slot.1) slot.2 word) }

def setPage (s : Walks n) (page : ℕ) (content : ℕ → ℕ) : Walks n :=
  { s with mem := Function.update s.mem page content }

def record (s : Walks n) (h : Fin n) (e : WalkEvent) : Walks n := { s with log := (h, e) :: s.log }

/-- The end of an iteration at `level`: `pt` is the table below. After level 1 the loop is over. -/
def enter (s : Walks n) (h : Fin n) (level pt : ℕ) : Walks n :=
  let w := s.walkers h
  if level = 1 then (s.record h (.arrive w.va (pt, PX 0 w.va))).setWalker h { w with pc := .check pt }
  else s.setWalker h { w with pc := .test (level - 1) pt }

def go (s : Walks n) (h : Fin n) : Option (Walks n) :=
  let w := s.walkers h
  match w.pc with
  | .test level pt =>
    some (s.setWalker h
      { w with pc := if has (s.mem pt (PX level w.va)) PTE_V then .follow level pt else .grow level pt })
  | .follow level pt => some (s.enter h level (PTE2PA (s.mem pt (PX level w.va)) / PGSIZE))
  | .cas level pt page =>
    let slot : Slot := (pt, PX level w.va)
    if s.mem pt (PX level w.va) = 0 then
      let s := (s.setWord slot (PA2PTE (page * PGSIZE) ||| PTE_V)).record h (.publish slot page)
      some (s.setWalker h { w with pc := .wipe level pt page })
    else some (s.setWalker h { w with pc := .drop level pt page })
  | .drop level pt page =>
    let s := { s.record h (.release page) with out := s.out.erase page }
    some (s.setWalker h { w with pc := .follow level pt })
  | .wipe level _ page => some ((s.setPage page fun _ => 0).enter h level page)
  | .check pt =>
    some (s.setWalker h { w with pc := if has (s.mem pt (PX 0 w.va)) PTE_V then .halted else .store pt })
  | .store pt =>
    let slot : Slot := (pt, PX 0 w.va)
    some (((s.setWord slot w.pte).record h (.stored slot w.pte)).setWalker h { w with pc := .idle })
  | .idle => none
  | .grow _ _ => none
  | .halted => none

/-- One step on the directory `dir` (its page number). A null pointer from `alloc_page` ends the call. -/
def step (dir : ℕ) (s : Walks n) : Fin n × WalkOp → Option (Walks n)
  | (h, .start va pa perm) =>
    if (s.walkers h).pc = .idle ∧ 0 < va ∧ va < MAXVA then
      some (s.setWalker h ⟨.test 2 dir, va, PA2PTE pa ||| perm ||| PTE_V⟩)
    else none
  | (h, .alloc page content) =>
    let w := s.walkers h
    match w.pc with
    | .grow level pt =>
      if page = 0 then some (s.setWalker h { w with pc := .idle })
      else if page ∉ s.out ∧ page < 2 ^ 44 then
        let s := { (s.setPage page content).record h (.alloc page) with out := page :: s.out }
        some (s.setWalker h { w with pc := .cas level pt page })
      else none
    | _ => none
  | (h, .go) => s.go h

end Walks

end Pke.Model
