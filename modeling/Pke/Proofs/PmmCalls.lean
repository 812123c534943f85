import Pke.Lib.Exec
import Pke.Model.Pmm

/-! # What each entry point of the allocator does

One equation for every call: the value and the state it returns, or where it stops. The proofs after
this module cite these equations and never run the monadic programs again.
-/

namespace Pke.Proofs

open Pke.Lib Pke.Model

theorem pfn_addr_injective : Function.Injective PFN_TO_ADDR := fun a b same => by
  rw [← addr_pfn a, same, addr_pfn]

/-- The state after one locked section that left the rest alone. -/
def lockedOnce (s : Pmm) : Pmm := { s with events := .release :: .acquire :: s.events, lock := false }

theorem buddyAlloc_eq (k : ℕ) (s : Pmm) :
    buddyAlloc k s =
      if k < MAX_ORDER then
        if s.lock then .error .spinsForever s
        else
          match buddyTake k s.buddy with
          | some (p, b) => .ok (PFN_TO_ADDR p) { lockedOnce s with buddy := markTaken p b }
          | none => .error (.panic "buddy_alloc : Out of required size of memory!\n") (lockedOnce s)
      else .error (.kassertFailed "likely(order >= 0 && order < MAX_ORDER)") s := by
  by_cases small : k < MAX_ORDER
  · cases held : s.lock with
    | true => simp [buddyAlloc, kassert, small, bind_apply, lockAcquire, held]
    | false =>
      cases taken : buddyTake k s.buddy with
      | none => simp [buddyAlloc, kassert, small, bind_apply, lockAcquire, held, Pmm.record, taken,
        lockRelease, lockedOnce]
      | some result =>
        simp [buddyAlloc, kassert, small, bind_apply, lockAcquire, held, Pmm.record, taken, lockRelease,
          onBuddy, map_apply, lockedOnce]
  · simp [buddyAlloc, kassert, small, bind_apply]

theorem buddyFree_eq (addr : ℕ) (s : Pmm) :
    buddyFree addr s =
      if s.buddyStart ≤ addr ∨ addr < s.buddyEnd then
        if s.lock then .error .spinsForever s
        else .ok () { lockedOnce s with buddy := buddyMergeInner (ADDR_TO_PFN addr) s.buddy }
      else .error (.kassertFailed "addr >= buddy_start || addr < buddy_end") s := by
  by_cases inside : s.buddyStart ≤ addr ∨ addr < s.buddyEnd
  · cases held : s.lock with
    | true => simp [buddyFree, kassert, inside, bind_apply, lockAcquire, held]
    | false =>
      simp [buddyFree, kassert, inside, bind_apply, lockAcquire, held, Pmm.record, lockRelease,
        onBuddy, lockedOnce]
  · simp [buddyFree, kassert, inside, bind_apply]

/-- A returning `buddy_alloc`. -/
theorem buddyAlloc_eq_ok {k addr : ℕ} {s t : Pmm} :
    buddyAlloc k s = .ok addr t ↔
      k < MAX_ORDER ∧ s.lock = false ∧ ∃ p b, buddyTake k s.buddy = some (p, b) ∧ addr = PFN_TO_ADDR p ∧
        t = { lockedOnce s with buddy := markTaken p b } := by
  rw [buddyAlloc_eq]
  by_cases small : k < MAX_ORDER
  · cases held : s.lock with
    | true => simp [small]
    | false =>
      cases taken : buddyTake k s.buddy with
      | none => simp [small]
      | some result =>
        simp only [small, if_true, Bool.false_eq_true, if_false, EStateM.Result.ok.injEq, true_and,
          Option.some.injEq]
        constructor
        · rintro ⟨rfl, rfl⟩
          exact ⟨_, _, rfl, rfl, rfl⟩
        · rintro ⟨p, b, rfl, rfl, rfl⟩
          exact ⟨rfl, rfl⟩
  · simp [small]

theorem buddyFree_eq_ok {addr : ℕ} {s t : Pmm} :
    buddyFree addr s = .ok () t ↔ (s.buddyStart ≤ addr ∨ addr < s.buddyEnd) ∧ s.lock = false ∧
      t = { lockedOnce s with buddy := buddyMergeInner (ADDR_TO_PFN addr) s.buddy } := by
  rw [buddyFree_eq]
  by_cases inside : s.buddyStart ≤ addr ∨ addr < s.buddyEnd
  · cases held : s.lock with
    | true => simp [inside]
    | false => simp [inside, eq_comm]
  · simp [inside]

theorem pmmSetup_eq_ok {kernelEnd memSize : ℕ} {s t : Pmm} (ok : pmmSetup kernelEnd memSize s = .ok () t) :
    let size := min PKE_MAX_ALLOWABLE_RAM memSize
    let nr := size / PGSIZE
    let start := ROUNDUP (nr * PAGE_T_SIZE + ROUNDUP kernelEnd 8) PGSIZE
    let stop := ROUNDDOWN (size + DRAM_BASE) PGSIZE
    kernelEnd - KERN_BASE ≤ size ∧ t = { s with
      nrPages := nr, buddyStart := start, buddyEnd := stop, lock := false
      buddy := buddySystemInit start stop
        { s.buddy with pages := fun i => if i < nr then reservedPage else s.buddy.pages i } } := by
  intro size nr start stop
  by_cases small : size < kernelEnd - KERN_BASE
  · simp [pmmSetup, bind_apply, small, size] at ok
  · refine ⟨Nat.not_lt.mp small, ?_⟩
    have run : pmmSetup kernelEnd memSize s = .ok () { s with
        nrPages := nr, buddyStart := start, buddyEnd := stop, lock := false
        buddy := buddySystemInit start stop
          { s.buddy with pages := fun i => if i < nr then reservedPage else s.buddy.pages i } } := by
      simp [pmmSetup, small, size, onBuddy, nr, start, stop]
    simpa using (ok.symm.trans run)

/-- The state after `objs[--count]`, where `count` is a 32-bit word. -/
def popped (id : ℕ) (s : Pmm) : Pmm :=
  let index := decr32 (s.caches id).count
  (s.setCount id index).record (.objs index)

/-- The state after `objs[++count] = p`. -/
def pushed (id pfn : ℕ) (s : Pmm) : Pmm :=
  let index := incr32 (s.caches id).count
  ((s.setCount id index).record (.objs index)).setObj id index pfn

/-- The state in which `objs[++count] = p` is found out of bounds. -/
def overrun (id : ℕ) (s : Pmm) : Pmm :=
  let index := incr32 (s.caches id).count
  (s.setCount id index).record (.objs index)

private theorem objsIndex_eq (index : ℕ) (s : Pmm) :
    objsIndex index s =
      if index < PCPU_CACHE_SIZE then .ok () (s.record (.objs index))
      else .error .outOfBounds (s.record (.objs index)) := by
  by_cases inside : index < PCPU_CACHE_SIZE
  · simp [objsIndex, bind_apply, inside]
  · simp [objsIndex, bind_apply, inside]

theorem cacheIndex_eq (id : ℕ) (s : Pmm) :
    cacheIndex id s = if id < NCPU then .ok () (s.record (.cpu id))
    else .error .outOfBounds (s.record (.cpu id)) := by
  by_cases inside : id < NCPU
  · simp [cacheIndex, bind_apply, inside]
  · simp [cacheIndex, bind_apply, inside]

theorem storeObj_eq (id index pfn : ℕ) (s : Pmm) :
    storeObj id index pfn s =
      if index < PCPU_CACHE_SIZE then .ok () ((s.record (.objs index)).setObj id index pfn)
      else .error .outOfBounds (s.record (.objs index)) := by
  by_cases inside : index < PCPU_CACHE_SIZE
  · simp [storeObj, bind_apply, objsIndex_eq, inside]
  · simp [storeObj, bind_apply, objsIndex_eq, inside]

private theorem popObj_eq (id : ℕ) (s : Pmm) :
    popObj id s =
      if decr32 (s.caches id).count < PCPU_CACHE_SIZE then
        .ok ((s.caches id).objs (decr32 (s.caches id).count)) (popped id s)
      else .error .outOfBounds (popped id s) := by
  rw [popObj, popped]
  simp only [bind_apply, modify_apply, get_apply, objsIndex_eq]
  generalize decr32 (s.caches id).count = index
  have count : ((s.setCount id index).caches id).count = index := by simp [Pmm.setCount]
  have objs : ((s.setCount id index).caches id).objs = (s.caches id).objs := by simp [Pmm.setCount]
  rw [count]
  by_cases inside : index < PCPU_CACHE_SIZE
  · simp [inside, Pmm.record, count, objs]
  · simp [inside]

private theorem pushObj_eq (id pfn : ℕ) (s : Pmm) :
    pushObj id pfn s =
      if incr32 (s.caches id).count < PCPU_CACHE_SIZE then .ok () (pushed id pfn s)
      else .error .outOfBounds (overrun id s) := by
  rw [pushObj, pushed, overrun]
  simp only [bind_apply, modify_apply, get_apply, storeObj_eq]
  generalize incr32 (s.caches id).count = index
  have count : ((s.setCount id index).caches id).count = index := by simp [Pmm.setCount]
  rw [count]

theorem decr32_of_pos {n : ℕ} (positive : n ≠ 0) (small : n ≤ PCPU_CACHE_SIZE) : decr32 n = n - 1 := by
  simp only [decr32, PCPU_CACHE_SIZE] at *
  omega

theorem incr32_of_lt {n : ℕ} (small : n ≤ PCPU_CACHE_SIZE) : incr32 n = n + 1 := by
  simp only [incr32, PCPU_CACHE_SIZE] at *
  omega

/-- The state after `n` rounds of the drain loop. -/
def drained (id : ℕ) : ℕ → Pmm → Pmm
  | 0, s => s
  | n + 1, s =>
    let index := decr32 (s.caches id).count
    drained id n { popped id s with buddy := buddyMergeInner ((s.caches id).objs index) s.buddy }

/-- The loop stays inside the array while there are live slots. -/
private theorem drain_eq (id n : ℕ) {s : Pmm} (enough : n ≤ (s.caches id).count)
    (small : (s.caches id).count ≤ PCPU_CACHE_SIZE) :
    drain id n s = .ok () (drained id n s) := by
  induction n generalizing s with
  | zero => rfl
  | succ n ih =>
    have index := decr32_of_pos (by omega) small
    have inside : decr32 (s.caches id).count < PCPU_CACHE_SIZE := by omega
    have rest := ih (s := { popped id s
      with buddy := buddyMergeInner ((s.caches id).objs (decr32 (s.caches id).count)) s.buddy })
      (by simp [popped, Pmm.setCount, Pmm.record, index]; omega)
      (by simp [popped, Pmm.setCount, Pmm.record, index]; omega)
    rw [drain, bind_apply, popObj_eq, if_pos inside]
    simpa [bind_apply, onBuddy, drained, popped, Pmm.setCount, Pmm.record] using rest

private theorem drained_count {id n : ℕ} {s : Pmm} (enough : n ≤ (s.caches id).count)
    (small : (s.caches id).count ≤ PCPU_CACHE_SIZE) :
    ((drained id n s).caches id).count = (s.caches id).count - n := by
  induction n generalizing s with
  | zero => rfl
  | succ n ih =>
    have index := decr32_of_pos (by omega) small
    rw [drained, ih]
    · simp [popped, Pmm.setCount, Pmm.record, index]
      omega
    · simp [popped, Pmm.setCount, Pmm.record, index]
      omega
    · simp [popped, Pmm.setCount, Pmm.record, index]
      omega

/-- `alloc_page` retails from a nonempty cache. On an empty one it takes the lock that
`buddy_alloc` is about to take again, and spins. -/
theorem allocPage_eq (tp : ℕ) (s : Pmm) :
    allocPage tp s =
      if tp < NCPU then
        if (s.caches tp).count = 0 then
          .error .spinsForever (if s.lock then s.record (.cpu tp)
            else { (s.record (.cpu tp)).record .acquire with lock := true })
        else if decr32 (s.caches tp).count < PCPU_CACHE_SIZE then
          .ok (PFN_TO_ADDR ((s.caches tp).objs (decr32 (s.caches tp).count))) (popped tp (s.record (.cpu tp)))
        else .error .outOfBounds (popped tp (s.record (.cpu tp)))
      else .error .outOfBounds (s.record (.cpu tp)) := by
  by_cases hart : tp < NCPU
  · by_cases empty : (s.caches tp).count = 0
    · cases held : s.lock with
      | true => simp [allocPage, bind_apply, cacheIndex_eq, hart, empty, Pmm.record, lockAcquire, held]
      | false =>
        simp [allocPage, bind_apply, cacheIndex_eq, hart, empty, Pmm.record, lockAcquire, held, refill,
          buddyAlloc_eq, MAX_ORDER]
    · by_cases inside : decr32 (s.caches tp).count < PCPU_CACHE_SIZE
      · simp [allocPage, bind_apply, cacheIndex_eq, hart, map_apply, empty, Pmm.record, popObj_eq, inside]
      · simp [allocPage, bind_apply, cacheIndex_eq, hart, map_apply, empty, Pmm.record, popObj_eq, inside]
  · simp [allocPage, bind_apply, cacheIndex_eq, hart]

/-- A returning `alloc_page`. -/
theorem allocPage_eq_ok {tp addr : ℕ} {s t : Pmm} :
    allocPage tp s = .ok addr t ↔
      tp < NCPU ∧ (s.caches tp).count ≠ 0 ∧ decr32 (s.caches tp).count < PCPU_CACHE_SIZE ∧
        addr = PFN_TO_ADDR ((s.caches tp).objs (decr32 (s.caches tp).count)) ∧
        t = popped tp (s.record (.cpu tp)) := by
  rw [allocPage_eq]
  split_ifs with hart empty inside
  · simp [empty]
  · simp [hart, empty, inside, eq_comm]
  · simp [inside]
  · simp [hart]

/-- A full cache is drained to sixteen slots, so that the push has room. -/
private theorem pfree_full {tp addr : ℕ} {s : Pmm} (single : (s.buddy.pages (ADDR_TO_PFN addr)).order = 0)
    (hart : tp < NCPU) (full : (s.caches tp).count = PCPU_CACHE_SIZE) (held : s.lock = false) :
    pfree tp addr s = .ok () (pushed tp (ADDR_TO_PFN addr)
      { (drained tp 16 { (s.record (.cpu tp)).record .acquire with lock := true }).record .release
        with lock := false }) := by
  have enough : 16 ≤ PCPU_CACHE_SIZE := by decide
  have loop := drain_eq tp 16 (s := { (s.record (.cpu tp)).record .acquire with lock := true })
    (full ▸ enough) full.le
  have left := drained_count (n := 16) (s := { (s.record (.cpu tp)).record .acquire with lock := true })
    (full ▸ enough) full.le
  generalize drained tp 16 { (s.record (.cpu tp)).record .acquire with lock := true } = mid at loop left
  change _ = (s.caches tp).count - 16 at left
  have room : incr32 (mid.caches tp).count < PCPU_CACHE_SIZE := by
    rw [left, full]
    decide
  have enter : lockAcquire (s.record (.cpu tp)) =
    .ok () { (s.record (.cpu tp)).record .acquire with lock := true } := by
    simp [lockAcquire, Pmm.record, held]
  have push : pushObj tp (ADDR_TO_PFN addr) { mid.record .release with lock := false } = .ok () _ :=
    (pushObj_eq tp (ADDR_TO_PFN addr) _).trans (if_pos room)
  have full' : ((s.record (.cpu tp)).caches tp).count = PCPU_CACHE_SIZE := full
  simp only [pfree, bind_apply, get_apply, single, ne_eq, not_true_eq_false, if_false, cacheIndex_eq, hart,
    if_true, full', enter, loop, lockRelease, push]

/-- `pfree` of a single page pushes it; a full cache is drained before, and has room then. -/
theorem pfree_eq (tp addr : ℕ) (s : Pmm) :
    pfree tp addr s =
      let pfn := ADDR_TO_PFN addr
      if (s.buddy.pages pfn).order ≠ 0 then
        if s.lock then .error .spinsForever s
        else .ok () { lockedOnce s with buddy := buddyMergeInner pfn s.buddy }
      else if tp < NCPU then
        if (s.caches tp).count = PCPU_CACHE_SIZE then
          if s.lock then .error .spinsForever (s.record (.cpu tp))
          else
            let s := drained tp 16 { (s.record (.cpu tp)).record .acquire with lock := true }
            .ok () (pushed tp pfn { s.record .release with lock := false })
        else if incr32 (s.caches tp).count < PCPU_CACHE_SIZE then .ok () (pushed tp pfn (s.record (.cpu tp)))
        else .error .outOfBounds (overrun tp (s.record (.cpu tp)))
      else .error .outOfBounds (s.record (.cpu tp)) := by
  by_cases single : (s.buddy.pages (ADDR_TO_PFN addr)).order = 0
  · by_cases hart : tp < NCPU
    · by_cases full : (s.caches tp).count = PCPU_CACHE_SIZE
      · cases held : s.lock with
        | true => simp [pfree, bind_apply, single, cacheIndex_eq, hart, full, lockAcquire, held, Pmm.record]
        | false =>
          simp [pfree_full single hart full held, single, hart, full]
      · by_cases room : incr32 (s.caches tp).count < PCPU_CACHE_SIZE
        · simp [pfree, bind_apply, single, cacheIndex_eq, hart, full, Pmm.record, pushObj_eq, room]
        · simp [pfree, bind_apply, single, cacheIndex_eq, hart, full, Pmm.record, pushObj_eq, room]
    · simp [pfree, bind_apply, single, cacheIndex_eq, hart]
  · cases held : s.lock with
    | true => simp [pfree, bind_apply, single, lockAcquire, held]
    | false => simp [pfree, bind_apply, single, lockAcquire, held, Pmm.record, lockRelease, onBuddy, lockedOnce]

/-- The push of a single page into a slot of the array. -/
theorem pfree_of_room {tp addr : ℕ} {s : Pmm} (single : (s.buddy.pages (ADDR_TO_PFN addr)).order = 0)
    (hart : tp < NCPU) (room : (s.caches tp).count + 1 < PCPU_CACHE_SIZE) :
    pfree tp addr s = .ok () (pushed tp (ADDR_TO_PFN addr) (s.record (.cpu tp))) := by
  have index : incr32 (s.caches tp).count < PCPU_CACHE_SIZE := by rwa [incr32_of_lt (by omega)]
  have notFull : (s.caches tp).count ≠ PCPU_CACHE_SIZE := by omega
  simp only [pfree_eq, single, ne_eq, not_true_eq_false, if_false, hart, if_true, notFull, index]

/-- The push behind the last slot. -/
theorem pfree_of_last {tp addr : ℕ} {s : Pmm} (single : (s.buddy.pages (ADDR_TO_PFN addr)).order = 0)
    (hart : tp < NCPU) (last : (s.caches tp).count + 1 = PCPU_CACHE_SIZE) :
    pfree tp addr s = .error .outOfBounds (overrun tp (s.record (.cpu tp))) := by
  have index : ¬ incr32 (s.caches tp).count < PCPU_CACHE_SIZE := by
    rw [incr32_of_lt (by omega), last]
    exact lt_irrefl _
  have notFull : (s.caches tp).count ≠ PCPU_CACHE_SIZE := by omega
  simp only [pfree_eq, single, ne_eq, not_true_eq_false, if_false, hart, if_true, notFull, index]

end Pke.Proofs
