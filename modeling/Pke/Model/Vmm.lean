import Pke.Model.Process

/-! # Page tables: `vmm.c`

Sv39 tables are pages of 512 words. A table is named by its page number, and a pointer to an entry is a
`Slot`. Addresses returned by `alloc_page` are page addresses. The kernel runs on the direct mapping, so a
physical address is used as a pointer.
-/

namespace Pke.Model

variable {σ : Type}

def PTE_V : ℕ := 1
def PTE_R : ℕ := 2
def PTE_W : ℕ := 4
def PTE_X : ℕ := 8
def PTE_U : ℕ := 16
def PTE_A : ℕ := 64
def PTE_D : ℕ := 128
def PTE_COW : ℕ := 256

/-- The test `word & flag`. -/
def has (word flag : ℕ) : Bool := word &&& flag ≠ 0

/-- `word & ~flag`. -/
def clear (word flag : ℕ) : ℕ := word ^^^ (word &&& flag)

def PA2PTE (pa : ℕ) : ℕ := pa / 2 ^ 12 * 2 ^ 10

def PTE2PA (pte : ℕ) : ℕ := pte / 2 ^ 10 * 2 ^ 12 % WORD

def PX (level va : ℕ) : ℕ := va / 2 ^ (12 + 9 * level) % 512

/-- A page-table entry: the page of the table and the index. -/
abbrev Slot := ℕ × ℕ

def pteAt (k : Kernel σ) (slot : Slot) : ℕ := k.mem slot.1 slot.2

def setPte (slot : Slot) (pte : ℕ) : Exec (Kernel σ) Unit := modify fun k => k.setWord slot.1 slot.2 pte

/-- `atomic_cas_d` on an entry. -/
def casPte (slot : Slot) (expected new : ℕ) : Exec (Kernel σ) Bool := do
  if pteAt (← get) slot = expected then
    setPte slot new
    return true
  return false

/-- `memset(page, 0, PGSIZE)`. -/
def clearPage (page : ℕ) : Exec (Kernel σ) Unit := modify fun k => k.setPage page fun _ => 0

/-- `perm` of `prot_to_type(prot, user)`. -/
def protToType (read write exec user : Bool) : ℕ :=
  let perm := 0
  let perm := if read then perm ||| (PTE_R ||| PTE_A) else perm
  let perm := if write then perm ||| (PTE_W ||| PTE_D) else perm
  let perm := if exec then perm ||| (PTE_X ||| PTE_A) else perm
  let perm := if perm = 0 then PTE_R else perm
  if user then perm ||| PTE_U else perm

/-- The loop of `page_walk`: `n` levels above the target level are left, and `pt` is the table reached. -/
def pageWalkLoop (env : PageEnv σ) (va targetLevel : ℕ) (alloc : Bool) :
    ℕ → ℕ → Exec (Kernel σ) (Option ℕ)
  | 0, pt => return some pt
  | n + 1, pt => do
    let slot : Slot := (pt, PX (targetLevel + n + 1) va)
    let pte := pteAt (← get) slot
    if has pte PTE_V then
      pageWalkLoop env va targetLevel alloc n (PTE2PA pte / PGSIZE)
    else if alloc then
      let page ← env.allocPage
      if page ≠ 0 then
        if ← casPte slot 0 (PA2PTE page ||| PTE_V) then
          clearPage (page / PGSIZE)
          pageWalkLoop env va targetLevel alloc n (page / PGSIZE)
        else
          env.pfree page
          pageWalkLoop env va targetLevel alloc n (PTE2PA (pteAt (← get) slot) / PGSIZE)
      else return none
    else return none

def pageWalk (env : PageEnv σ) (pageDir va targetLevel : ℕ) (alloc : Bool) :
    Exec (Kernel σ) (Option Slot) := do
  kassert (0 < va && va < MAXVA) "va > 0 && va < MAXVA"
  match ← pageWalkLoop env va targetLevel alloc (2 - targetLevel) (pageDir / PGSIZE) with
  | some pt => return some (pt, PX 0 va)
  | none => return none

/-- `n` rounds of the loop of `map_pages`. -/
def mapPagesLoop (env : PageEnv σ) (pageDir perm : ℕ) : ℕ → ℕ → ℕ → Exec (Kernel σ) Bool
  | 0, _, _ => return true
  | n + 1, first, pa => do
    match ← pageWalk env pageDir first 0 true with
    | none => return false
    | some slot =>
      if has (pteAt (← get) slot) PTE_V then
        throw (.panic "map_pages fails on mapping va (0x%lx) to pa (0x%lx)")
      setPte slot (PA2PTE pa ||| perm ||| PTE_V)
      mapPagesLoop env pageDir perm n ((first + PGSIZE) % WORD) ((pa + PGSIZE) % WORD)

/-- `map_pages`; it returns whether the C function returned 0. -/
def mapPages (env : PageEnv σ) (pageDir va size pa perm : ℕ) : Exec (Kernel σ) Bool :=
  let first := ROUNDDOWN va PGSIZE
  let last := ROUNDDOWN ((va + size + WORD - 1) % WORD) PGSIZE
  mapPagesLoop env pageDir perm (if first ≤ last then (last - first) / PGSIZE + 1 else 0) first pa

/-- `lookup_pa`. -/
def lookupPa (env : PageEnv σ) (pagetable va : ℕ) : Exec (Kernel σ) ℕ := do
  if va ≥ MAXVA then return 0
  match ← pageWalk env pagetable va 0 false with
  | none => return 0
  | some slot =>
    let pte := pteAt (← get) slot
    if !has pte PTE_V || (!has pte PTE_R && !has pte PTE_W) then return 0
    return PTE2PA pte

/-- `user_va_to_pa`; `none` is the null pointer, which is also the first byte of frame 0. -/
def userVaToPa (env : PageEnv σ) (pageDir va : ℕ) : Exec (Kernel σ) (Option ℕ) := do
  match ← pageWalk env pageDir va 0 false with
  | none => return none
  | some slot =>
    let pte := pteAt (← get) slot
    if !has pte PTE_V then return none
    let pa := PTE2PA pte ||| va % PGSIZE
    return if pa = 0 then none else some pa

def userVmMap (env : PageEnv σ) (pageDir va size pa perm : ℕ) : Exec (Kernel σ) Unit := do
  if !(← mapPages env pageDir va size pa perm) then throw (.panic "fail to user_vm_map .\n")

/-- `n` rounds of the loop of `user_vm_unmap`. -/
def userVmUnmapLoop (env : PageEnv σ) (pageDir : ℕ) (free : Bool) : ℕ → ℕ → Exec (Kernel σ) Unit
  | 0, _ => return ()
  | n + 1, first => do
    match ← pageWalk env pageDir first 0 false with
    | none => pure ()
    | some slot =>
      let pte := pteAt (← get) slot
      if has pte PTE_V then
        if free then env.pfree (PTE2PA pte)
        setPte slot 0
    userVmUnmapLoop env pageDir free n ((first + PGSIZE) % WORD)

/-- `user_vm_unmap`. The bound `va + size` is a 64-bit sum. -/
def userVmUnmap (env : PageEnv σ) (pageDir va size : ℕ) (free : Bool) : Exec (Kernel σ) Unit :=
  let first := ROUNDDOWN va PGSIZE
  let stop := (va + size) % WORD
  userVmUnmapLoop env pageDir free ((stop - first + PGSIZE - 1) / PGSIZE) first

end Pke.Model
