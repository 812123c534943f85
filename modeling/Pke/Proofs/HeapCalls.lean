import Pke.Proofs.FreedFrames

/-! # The heap calls under arbitrary arguments

`sys_user_free_page` takes any address: it unmaps the pages from the one that contains the address up to
the address one page further on, which are two pages if the address is not aligned, and it records the
address without looking at it.
-/

namespace Pke.Proofs

open Pke.Lib Pke.Model

variable {σ : Type} {env : PageEnv σ} {trapSec : ℕ} {lay : Layout}

/-- The pages that `user_vm_unmap(va, PGSIZE)` visits, for the running process. -/
inductive Unmaps (env : PageEnv σ) (k : Kernel σ) (va : ℕ) : Kernel σ → Prop
  | wraps (beyond : WORD ≤ va + PGSIZE) : Unmaps env k va k
  | one {k₁ : Kernel σ} (below : va + PGSIZE < WORD) (aligned : va % PGSIZE = 0)
    (first : Unmapped env k k.current va k₁) :
      Unmaps env k va k₁
  | two {k₁ k₂ : Kernel σ} (below : va + PGSIZE < WORD) (unaligned : va % PGSIZE ≠ 0)
      (first : Unmapped env k k.current va k₁) (second : Unmapped env k₁ k.current (va + PGSIZE) k₂) :
      Unmaps env k va k₂

theorem pageOf_roundDown (va : ℕ) : pageOf (ROUNDDOWN va PGSIZE) = pageOf va := by
  simp only [pageOf, ROUNDDOWN, PGSIZE]
  omega

private theorem pageOf_next (va : ℕ) : pageOf (ROUNDDOWN va PGSIZE + PGSIZE) = pageOf (va + PGSIZE) := by
  simp only [pageOf, ROUNDDOWN, PGSIZE]
  omega

private theorem pageOf_next_ne (va : ℕ) : pageOf (va + PGSIZE) ≠ pageOf va := by
  simp only [pageOf, PGSIZE]
  omega

/-- The effect only depends on the page of the address. -/
theorem Unmapped.congr {k k' : Kernel σ} {pid a b : ℕ} (unmapped : Unmapped env k pid a k')
    (same : pageOf a = pageOf b) : Unmapped env k pid b k' := by
  have pte : pteOf k pid a = pteOf k pid b := pteOf_congr same
  have edit : ∀ entry, editPte (pteOf k) pid a entry = editPte (pteOf k) pid b entry := fun entry => by
    funext pid' va'
    rw [editPte, editPte, same]
  obtain ⟨procs, current, tp, ptes, trace, pool⟩ := unmapped
  rw [pte] at ptes trace pool
  simp only [edit] at ptes
  exact ⟨procs, current, tp, ptes, trace, pool⟩

theorem rounds_wrap {va : ℕ} (word : va < WORD) (beyond : WORD ≤ va + PGSIZE) :
    ((va + PGSIZE) % WORD - ROUNDDOWN va PGSIZE + PGSIZE - 1) / PGSIZE = 0 := by
  simp only [ROUNDDOWN, PGSIZE, WORD] at *
  omega

theorem rounds_two {va : ℕ} (below : va + PGSIZE < WORD) (unaligned : va % PGSIZE ≠ 0) :
    ((va + PGSIZE) % WORD - ROUNDDOWN va PGSIZE + PGSIZE - 1) / PGSIZE = 2 ∧
      (ROUNDDOWN va PGSIZE + PGSIZE) % WORD = ROUNDDOWN va PGSIZE + PGSIZE := by
  simp only [ROUNDDOWN, PGSIZE, WORD] at *
  omega

section

variable {k : Kernel σ} {own : Owner} {va : ℕ}

theorem Shape.userVmUnmap (shape : Shape trapSec k own) (inside : HasSpace k k.current) (word : va < WORD) :
    Yields (userVmUnmap env (k.procs k.current).pagetable va PGSIZE true) k fun _ k' => Unmaps env k va k' ∧
      Shape trapSec k' own := by
  rw [Model.userVmUnmap]
  by_cases beyond : WORD ≤ va + PGSIZE
  · rw [rounds_wrap word beyond]
    exact ⟨.wraps beyond, shape⟩
  have below : va + PGSIZE < WORD := Nat.lt_of_not_le beyond
  by_cases aligned : va % PGSIZE = 0
  · rw [unmap_rounds aligned below, roundDown_self aligned]
    have loop : Yields (userVmUnmapLoop env (k.procs k.current).pagetable true 1 va) k fun _ k' =>
        Unmaps env k va k' ∧ Shape trapSec k' own :=
      shape.unmapRound inside fun k' first shape' => ⟨.one below aligned first, shape'⟩
    exact loop
  · obtain ⟨rounds, next⟩ := rounds_two below aligned
    rw [rounds]
    refine shape.unmapRound inside fun k₁ first shape₁ => ?_
    have inside₁ : HasSpace k₁ k.current := by rwa [HasSpace, first.procs]
    have page := pageOf_next va
    rw [next, ← first.procs]
    generalize ROUNDDOWN va PGSIZE + PGSIZE = a at page
    exact shape₁.unmapRound inside₁ fun k₂ second shape₂ =>
      ⟨.two below aligned (first.congr (pageOf_roundDown va)) (second.congr page), shape₂⟩

/-- `sys_user_free_page` of any address. -/
theorem Shape.sysUserFreePage (shape : Shape trapSec k own) (inside : HasSpace k k.current) (word : va < WORD) :
    Yields (sysUserFreePage env va) k fun _ k' => ∃ k₁, Unmaps env k va k₁ ∧
      k' = (k₁.setProc k.current (releaseInto va)).record (.release k.current va) := by
  rw [Model.sysUserFreePage]
  refine Ensures.step (get_apply k) ?_
  refine Ensures.step (get_apply k) ?_
  refine Ensures.bind (shape.userVmUnmap inside word) ?_
  rintro _ k₁ ⟨unmaps, _⟩
  refine yields_pushFreePage ?_
  exact ⟨k₁, unmaps, rfl⟩

theorem Unmaps.procs {k' : Kernel σ} (unmaps : Unmaps env k va k') : k'.procs = k.procs := by
  cases unmaps with
  | wraps _ => rfl
  | one _ _ first => exact first.procs
  | two _ _ first second => exact second.procs.trans first.procs

/-- A push that leaves the heap manager intact had a good argument. -/
private theorem HeapOk.freeOk {p : Process} {pte pte' : ℕ → ℕ} (before : HeapOk p.userHeap pte)
    (after : HeapOk (releaseInto va p).userHeap pte') : FreeOk p.userHeap va := by
  have small := before.count
  have count : incr32 p.userHeap.freePagesCount = p.userHeap.freePagesCount + 1 := by
    rw [incr32, Nat.mod_eq_of_lt]
    simp only [MAX_HEAP_PAGES] at small
    omega
  have last : p.userHeap.freePagesCount < (releaseInto va p).userHeap.freePagesCount := by
    rw [releaseInto, count]
    exact Nat.lt_succ_self _
  have entry : (releaseInto va p).userHeap.freePagesAddress p.userHeap.freePagesCount = va :=
    Function.update_self ..
  have aligned := after.aligned _ last
  have range := after.range _ last
  rw [entry] at aligned range
  refine ⟨?_, aligned, range.1, range.2, fun i below same => ?_⟩
  · exact lt_of_lt_of_le last after.count
  · have older : (releaseInto va p).userHeap.freePagesAddress i = p.userHeap.freePagesAddress i :=
      Function.update_of_ne (Nat.ne_of_lt below) _ _
    exact absurd (after.distinct i (below.trans last) _ last (by rw [older, entry, same])) (Nat.ne_of_lt below)

end

/-- The heap managers of all processes are intact in every careful run, and a call of
`sys_user_free_page` that returns leaves the one of the caller intact exactly if its argument is a
page of the heap that is not recorded, and there is room to record it. -/
theorem heap_managers_intact {k₀ k : Kernel Pool} {ops : List Op} (boot : BootState lay k₀)
    (run : Run (Guarded (Careful lay) (Step pmmEnv lay)) k₀ ops k) :
    (∀ pid, HasSpace k pid → HeapOk (k.procs pid).userHeap (pteOf k pid)) ∧ ∀ regs sepc k', Live k k.current →
      regs .a1 < WORD → sysUserFreePage pmmEnv (regs .a1) (k.entered regs sepc) = .ok () k' →
      (HeapOk (k'.procs k.current).userHeap (pteOf k' k.current) ↔
        FreeOk (k.procs k.current).userHeap (regs .a1)) := by
  obtain ⟨own, sane⟩ := careful_sane boot run
  refine ⟨fun pid inside => (sane.procs pid inside).heap, fun regs sepc k' live word call => ?_⟩
  have saved := entered_saved k regs sepc
  have entry := saved.quiet.sane sane
  have live₁ : Live (k.entered regs sepc) (k.entered regs sepc).current := (saved.live _).mpr live
  obtain ⟨frame, same⟩ := saved.procs k.current
  have heap : ((k.entered regs sepc).procs k.current).userHeap = (k.procs k.current).userHeap := by rw [same]
  constructor
  · intro after
    obtain ⟨k₁, unmaps, rfl⟩ := (entry.shape.sysUserFreePage live₁.1 word).of_ok call
    change HeapOk ((k₁.setProc k.current (releaseInto (regs .a1))).procs k.current).userHeap _ at after
    rw [Kernel.setProc_procs_self, unmaps.procs] at after
    rw [← heap]
    exact HeapOk.freeOk (entry.procs _ live₁.1).heap after
  · intro free
    rw [← heap] at free
    obtain ⟨sane', freed⟩ := (entry.sysUserFreePage live₁ free).of_ok call
    exact (sane'.procs _ ((freed.inside _).mpr live₁.1)).heap

/-- A process that has allocated two pages and released one of them. -/
theorem heap_managers_intact_small :
    ∃ k, Run (Guarded (Careful smallLayout) (Step pmmEnv smallLayout)) smallKernel
    smallRelease k ∧ HasSpace k 0 ∧ (k.procs 0).userHeap.freePagesCount = 1 ∧
    HeapOk (k.procs 0).userHeap (pteOf k 0) := by
  obtain ⟨k, run, inside, _, count, _⟩ := smallRelease_run
  obtain ⟨careful, _⟩ := releases_careful smallKernel_boot.good run
  exact ⟨k, careful, inside, count, (heap_managers_intact smallKernel_boot careful).1 0 inside⟩

/-- Releasing a page twice records it twice. -/
theorem heap_double_free_small : ∃ k, BootState smallLayout smallKernel ∧
    Run (Step pmmEnv smallLayout) smallKernel
    (smallStart ++ [.trap (request SYS_user_allocate_page 0) 0 .ecall,
      .trap (request SYS_user_free_page USER_FREE_ADDRESS_START) 0 .ecall,
      .trap (request SYS_user_free_page USER_FREE_ADDRESS_START) 0 .ecall]) k ∧
    HasSpace k 0 ∧ ¬ HeapOk (k.procs 0).userHeap (pteOf k 0) := by
  have checked : (execute pmmEnv smallLayout (smallStart ++ [.trap (request SYS_user_allocate_page 0) 0 .ecall,
      .trap (request SYS_user_free_page USER_FREE_ADDRESS_START) 0 .ecall,
      .trap (request SYS_user_free_page USER_FREE_ADDRESS_START) 0 .ecall]) smallKernel).any
      (fun k => decide (HasSpace k 0 ∧
        (k.procs 0).userHeap.freePagesCount = 2 ∧
        (k.procs 0).userHeap.freePagesAddress 0 = (k.procs 0).userHeap.freePagesAddress 1)) =
        true := by decide +kernel
  obtain ⟨k, run, check⟩ := run_of_check checked
  obtain ⟨inside, count, same⟩ := of_decide_eq_true check
  refine ⟨k, smallKernel_boot, run, inside, fun ok => ?_⟩
  exact absurd (ok.distinct 0 (by rw [count]; decide) 1 (by rw [count]; decide) same) (by decide)

/-- The pages that a process got from `sys_user_allocate_page` and has not released; those that it
inherited from its parent are not among them. -/
def granted : List PageEvent → ℕ → List ℕ
  | [], _ => []
  | .grant p va :: rest, pid => if p = pid then pageOf va :: granted rest pid else granted rest pid
  | .release p va :: rest, pid => if p = pid then (granted rest pid).filter (· ≠ pageOf va)
    else granted rest pid
  | .create p :: rest, pid => if p = pid then [] else granted rest pid
  | .fork _ _ :: rest, pid => granted rest pid
  | .alloc _ :: rest, pid => granted rest pid
  | .free _ :: rest, pid => granted rest pid

/-- A call with argument `va` unmaps and releases at most the page at `va`, and only if it is a heap
page of the caller. -/
structure ReleasesOwnPage (k k' : Kernel σ) (va : ℕ) : Prop where
  ptes : ∀ pid, HasSpace k pid → ∀ va', pteOf k' pid va' ≠ pteOf k pid va' →
    pid = k.current ∧ pageOf va' = pageOf va ∧ pageOf va ∈ granted k.trace k.current
  frees : k'.trace = .release k.current va :: k.trace ∨
    (pageOf va ∈ granted k.trace k.current ∧
      k'.trace = .release k.current va :: .free (PTE2PA (pteOf k k.current va)) :: k.trace)

/-- The page at `va` is a heap page of the running process or not mapped, and if `va` is not
aligned, the next page is not mapped. The last page of the address range is never visited. -/
def OwnsRange (k : Kernel σ) (va : ℕ) : Prop :=
  WORD ≤ va + PGSIZE ∨
    ((has (pteOf k k.current va) PTE_V = true → pageOf va ∈ granted k.trace k.current) ∧
      (va % PGSIZE = 0 ∨ has (pteOf k k.current (va + PGSIZE)) PTE_V = false))

section

variable {k k₁ k₂ : Kernel σ} {va : ℕ}

/-- Unmapping one page is right exactly if that page is not mapped or is a heap page. -/
theorem Unmapped.releases_iff (first : Unmapped env k k.current va k₁) (inside : HasSpace k k.current)
    (ptes : ∀ pid, HasSpace k pid → ∀ va', pteOf k₂ pid va' = pteOf k₁ pid va')
    (trace : k₂.trace = .release k.current va :: k₁.trace) :
    ReleasesOwnPage k k₂ va ↔ (has (pteOf k k.current va) PTE_V = true →
      pageOf va ∈ granted k.trace k.current) := by
  by_cases valid : has (pteOf k k.current va) PTE_V = true
  · have traceIs := first.trace
    have ptesAre := first.ptes
    rw [if_pos valid] at traceIs
    simp only [if_pos valid] at ptesAre
    constructor
    · rintro ⟨changed, _⟩ _
      refine (changed k.current inside va fun same => ?_).2.2
      rw [ptes _ inside, ptesAre _ inside, editPte, if_pos ⟨rfl, rfl⟩] at same
      exact Tables.valid_ne_zero valid same.symm
    · intro own
      refine ⟨fun pid inside' va' different => ?_, Or.inr ⟨own valid, by rw [trace, traceIs]⟩⟩
      rw [ptes _ inside', ptesAre _ inside', editPte] at different
      split_ifs at different with here
      · exact ⟨here.1, here.2, own valid⟩
      · exact absurd rfl different
  · have traceIs := first.trace
    have ptesAre := first.ptes
    rw [if_neg valid] at traceIs
    simp only [if_neg valid] at ptesAre
    refine ⟨fun _ isValid => absurd isValid valid,
      fun _ => ⟨fun pid inside' va' different => ?_, Or.inl (by rw [trace, traceIs])⟩⟩
    rw [ptes _ inside', ptesAre _ inside'] at different
    exact absurd rfl different

/-- The call of `sys_user_free_page` is right exactly on the ranges that `OwnsRange` describes. -/
theorem Unmaps.releases_iff (unmaps : Unmaps env k va k₁) (inside : HasSpace k k.current) :
    ReleasesOwnPage k ((k₁.setProc k.current (releaseInto va)).record (.release k.current va)) va ↔
    OwnsRange k va := by
  have released : ∀ k' : Kernel σ, ∀ pid va',
      pteOf ((k'.setProc k.current (releaseInto va)).record (.release k.current va)) pid va' =
      pteOf k' pid va' := fun k' pid va' => pteOf_setProc rfl pid va'
  cases unmaps with
  | wraps beyond =>
    refine ⟨fun _ => Or.inl beyond, fun _ => ⟨fun pid _ va' different => ?_, Or.inl rfl⟩⟩
    rw [released] at different
    exact absurd rfl different
  | one below aligned first =>
    rw [first.releases_iff inside (fun pid _ va' => released _ pid va') rfl, OwnsRange]
    exact ⟨fun own => Or.inr ⟨own, Or.inl aligned⟩, fun owns => (owns.resolve_left (Nat.not_le.mpr below)).1⟩
  | two below unaligned first second =>
    rename_i mid
    have inside₁ : HasSpace mid k.current := by rwa [HasSpace, first.procs]
    have apart : ∀ pid, ¬ (pid = k.current ∧ pageOf (va + PGSIZE) = pageOf va) :=
      fun pid both => pageOf_next_ne va both.2
    have next : pteOf mid k.current (va + PGSIZE) = pteOf k k.current (va + PGSIZE) := by
      rw [first.ptes _ inside, editPte, if_neg (apart _), ite_self]
    cases valid : has (pteOf k k.current (va + PGSIZE)) PTE_V with
    | true =>
      refine ⟨fun right => ?_, fun owns => ?_⟩
      · have ptes := second.ptes k.current inside₁ (va + PGSIZE)
        rw [next, if_pos valid, editPte, if_pos ⟨rfl, rfl⟩] at ptes
        have changed := right.ptes k.current inside (va + PGSIZE) fun same => by
          rw [released, ptes] at same
          exact Tables.valid_ne_zero valid same.symm
        exact absurd changed.2.1 (pageOf_next_ne va)
      · obtain ⟨_, none⟩ := owns.resolve_left (Nat.not_le.mpr below)
        rw [valid] at none
        exact absurd (none.resolve_left unaligned) (by decide)
    | false =>
      have invalid : ¬ has (pteOf mid k.current (va + PGSIZE)) PTE_V = true := by rw [next, valid]; decide
      have trace := second.trace
      rw [if_neg invalid] at trace
      rw [first.releases_iff inside (fun pid inside' va' => ?_)
        (congrArg (PageEvent.release k.current va :: ·) trace), OwnsRange, valid]
      · exact ⟨fun own => Or.inr ⟨own, Or.inr rfl⟩, fun owns => (owns.resolve_left (Nat.not_le.mpr below)).1⟩
      · rw [released, second.ptes pid (by rwa [HasSpace, first.procs]), if_neg invalid]

end

/-- In every state of a careful run, `sys_user_free_page` takes from the caller what the caller owns
exactly if the range that it visits holds nothing else. -/
theorem releases_own_page {k₀ k k' : Kernel Pool} {ops : List Op} (boot : BootState lay k₀)
    (run : Run (Guarded (Careful lay) (Step pmmEnv lay)) k₀ ops k) (live : Live k k.current)
    {regs : Regs} {sepc : ℕ} (word : regs .a1 < WORD)
    (call : sysUserFreePage pmmEnv (regs .a1) (k.entered regs sepc) = .ok () k') :
    ReleasesOwnPage (k.entered regs sepc) k' (regs .a1) ↔ OwnsRange (k.entered regs sepc) (regs .a1) := by
  obtain ⟨own, sane⟩ := careful_sane boot run
  have saved := entered_saved k regs sepc
  have shape := (saved.quiet.sane sane).shape
  have inside : HasSpace (k.entered regs sepc) (k.entered regs sepc).current := (saved.hasSpace _).mpr live.1
  obtain ⟨k₁, unmaps, rfl⟩ := (shape.sysUserFreePage inside word).of_ok call
  exact unmaps.releases_iff inside

/-- The page that was allocated last is released, and nothing else. -/
theorem releases_own_page_small :
    ∃ k k', Run (Guarded (Careful smallLayout) (Step pmmEnv smallLayout)) smallKernel
      (smallStart ++ [.trap (request SYS_user_allocate_page 0) 0 .ecall]) k ∧
      Live k k.current ∧
      sysUserFreePage pmmEnv USER_FREE_ADDRESS_START
      (k.entered (request SYS_user_free_page USER_FREE_ADDRESS_START) 0) = .ok () k' ∧
      ReleasesOwnPage (k.entered (request SYS_user_free_page USER_FREE_ADDRESS_START) 0) k'
      USER_FREE_ADDRESS_START := by
  have checked : (execute pmmEnv smallLayout
      (smallStart ++ [.trap (request SYS_user_allocate_page 0) 0 .ecall]) smallKernel).any
      (fun k => decide (Live k k.current ∧ pageOf USER_FREE_ADDRESS_START ∈ granted k.trace k.current) &&
        returned (fun _ _ => true) (sysUserFreePage pmmEnv USER_FREE_ADDRESS_START
          (k.entered (request SYS_user_free_page USER_FREE_ADDRESS_START) 0))) = true := by decide +kernel
  obtain ⟨k, run, check⟩ := run_of_check checked
  obtain ⟨state, ok⟩ := Bool.and_eq_true_iff.mp check
  obtain ⟨live, mine⟩ := of_decide_eq_true state
  obtain ⟨_, k', call, _⟩ := returned_eq_true ok
  obtain ⟨careful, _⟩ := calm_careful run (by decide) smallKernel_boot.good
  have owns : OwnsRange (k.entered (request SYS_user_free_page USER_FREE_ADDRESS_START) 0)
      USER_FREE_ADDRESS_START :=
    .inr ⟨fun _ => mine, .inl (by decide)⟩
  exact ⟨k, k', careful, live, call, Iff.mpr
    (releases_own_page smallKernel_boot careful live (by decide) call) owns⟩

/-- Releasing the page of the stack unmaps it, although it never was a heap page. -/
theorem stack_released_small : ∃ k k', BootState smallLayout smallKernel ∧
    Run (Step pmmEnv smallLayout) smallKernel smallStart k ∧ Live k k.current ∧
    sysUserFreePage pmmEnv STACK_PAGE (k.entered (request SYS_user_free_page STACK_PAGE) 0) = .ok () k' ∧
    ¬ ReleasesOwnPage (k.entered (request SYS_user_free_page STACK_PAGE) 0) k' STACK_PAGE := by
  have checked : (execute pmmEnv smallLayout smallStart smallKernel).any
      (fun k => decide (Live k k.current ∧ k.current = 0) &&
      returned (fun _ k' => decide (pteOf k' 0 STACK_PAGE ≠
        pteOf (k.entered (request SYS_user_free_page STACK_PAGE) 0) 0 STACK_PAGE ∧
        pageOf STACK_PAGE ∉ granted k.trace 0))
      (sysUserFreePage pmmEnv STACK_PAGE (k.entered (request SYS_user_free_page STACK_PAGE) 0))) =
      true := by decide +kernel
  obtain ⟨k, run, check⟩ := run_of_check checked
  obtain ⟨running, ok⟩ := Bool.and_eq_true_iff.mp check
  obtain ⟨live, current⟩ := of_decide_eq_true running
  obtain ⟨_, k', call, passed⟩ := returned_eq_true ok
  obtain ⟨changed, foreign⟩ := of_decide_eq_true passed
  refine ⟨k, k', smallKernel_boot, run, live, call, fun right => foreign ?_⟩
  have inside : HasSpace (k.entered (request SYS_user_free_page STACK_PAGE) 0) 0 :=
    ((entered_saved k _ 0).hasSpace 0).mpr (current ▸ live.1)
  have mine := (right.ptes 0 inside STACK_PAGE changed).2.2
  rwa [show (k.entered (request SYS_user_free_page STACK_PAGE) 0).current = 0 from current] at mine

end Pke.Proofs
