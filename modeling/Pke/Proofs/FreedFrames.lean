import Pke.Proofs.PmmSupply

/-! # Frames that were given back

A frame in the page cache or in a free block of the buddy system is free. No process maps a free frame as
long as every page that is released is mapped once, lies in the slot of the cache that becomes live, and
is not shared copy-on-write. `handle_user_page_fault` and `user_vm_unmap` release shared pages as well.
-/

namespace Pke.Proofs

open Pke.Lib Pke.Model

variable {lay : Layout}

/-- The frame lies in a live slot of the page cache or in a free block of the buddy system. -/
def InPool (s : Pmm) (f : ℕ) : Prop := f ∈ cached s 0 ∨ ∃ g order, FreeBlock s.buddy g order ∧
    f ∈ span (g, order)

/-- No frame of the pool is mapped, and no page was released that was not in use. -/
structure NoFreedMapped (k : Kernel Pool) : Prop where
  unmapped : ∀ f, InPool k.pool.pmm f → ¬ Mapped k (pageOfPfn f)
  once : FreedOnce k.trace

/-- A frame of the pool is managed and not held. -/
private theorem CacheInv.inPool {s : Pmm} {held : List ℕ} (inv : CacheInv s held) {f : ℕ} (pool : InPool s f) :
    f ∈ Proofs.managed s ∧ f ∉ held := by
  rcases pool with member | ⟨g, order, ⟨lists, free, small, listed⟩, inside⟩
  · exact ⟨inv.managed (List.mem_append_right _ member), fun other =>
      List.disjoint_of_nodup_append inv.disjoint_singles other member⟩
  · obtain ⟨lists', ok⟩ := inv.pool
    rw [free.unique (BuddyInv.free ok) small] at listed
    have inFree : (g, order) ∈ freeBlocks lists' := mem_freeBlocks.mpr ⟨small, listed⟩
    have represents := ok.represents
    refine ⟨?_, fun other => ?_⟩
    · rw [← represents.cover]
      exact ⟨(g, order), List.mem_append_left _ inFree, inside⟩
    · have live : (f, 0) ∈ liveBlocks (addresses (singles (held ++ cached s 0))) := by
        rw [liveBlocks_addresses]
        exact List.mem_map.mpr ⟨f, List.mem_append_left _ other, rfl⟩
      have apart := (List.pairwise_append.mp represents.disjoint).2.2 _ inFree _ live
      exact Set.disjoint_left.mp apart inside (mem_span_self (f, 0))

/-- Over intact address spaces no frame of the pool is mapped. -/
private theorem Sound.noFreedMapped {k : Kernel Pool} (sound : Sound lay k) : NoFreedMapped k := by
  refine ⟨fun f pool mapped => ?_, sound.pool.once⟩
  obtain ⟨frames, used, inv⟩ := sound.pool.cache
  obtain ⟨inside, free⟩ := inv.inPool pool
  rcases sound.kept _ mapped with member | image
  · rw [used] at member
    obtain ⟨g, listed, same⟩ := List.mem_map.mp member
    exact free (pageOfPfn_injective same ▸ listed)
  · exact pageOfPfn_image (sound.pool.image f inside).1 image

/-- The page at `va` is a page of the allocator that the running process alone maps, and the slot of the cache
that becomes live still holds it. -/
structure LastOwner (lay : Layout) (k : Kernel Pool) (va : ℕ) : Prop extends
    MappedOnce (lay.trapSecStart / PGSIZE) k k.current va where
  slot : Returns k.pool.pmm (PTE2PA (pteOf k k.current va))

/-- The step releases pages of their last owner only, and handles store faults on pages that are not
shared. -/
def Releases (lay : Layout) (k : Kernel Pool) : Op → Prop
  | .trap regs _ .ecall => regs .a0 = SYS_user_free_page → LastOwner lay k (regs .a1)
  | .trap _ _ (.storePageFault stval) => k.pool.shares (PTE2PA (pteOf k k.current stval)) ≤ 1
  | _ => True

theorem MappedOnce.saved {k k₁ : Kernel Pool} {trapSec pid va : ℕ} (once : MappedOnce trapSec k pid va)
    (saved : Saved k k₁) : MappedOnce trapSec k₁ pid va := by
  obtain ⟨mapped, image, single⟩ := once
  refine ⟨?_, ?_, fun pid' inside va' valid frame => ?_⟩
  · rwa [saved.quiet.pteOf]
  · rwa [saved.quiet.pteOf]
  · rw [saved.quiet.pteOf] at valid frame
    rw [saved.quiet.pteOf] at frame
    exact single pid' ((saved.hasSpace pid').mp inside) va' valid frame

theorem LastOwner.saved {k k₁ : Kernel Pool} {va : ℕ} (last : LastOwner lay k va) (saved : Saved k k₁)
    (current : k₁.current = k.current) : LastOwner lay k₁ va := by
  obtain ⟨once, slot⟩ := last
  rw [← current] at once
  refine ⟨once.saved saved, ?_⟩
  rwa [current, saved.quiet.pteOf, saved.pool]

/-- Releasing the page of its last owner keeps allocator and address spaces intact. -/
theorem Freed.good {k k' : Kernel Pool} {own : Owner} {va : ℕ} (effect : Freed pmmEnv k va k')
    (last : LastOwner lay k va) (good : Good (pmmSupply lay) k own) (inside : HasSpace k k.current)
    (sane : Sane (lay.trapSecStart / PGSIZE) k' own) : Good (pmmSupply lay) k' own := by
  obtain ⟨⟨mapped, image, single⟩, room, slot⟩ := last
  have ok : PoolOk lay k := good.space.ok
  obtain ⟨frames, used, inv⟩ := ok.cache
  have small := (good.space.leaves _ inside va mapped).2
  have address : PTE2PA (pteOf k k.current va) = frameOf (pteOf k k.current va) * PGSIZE := PTE2PA_eq small
  have inUse : frameOf (pteOf k k.current va) ∈ handed k.trace :=
    (good.space.kept _ ⟨_, inside, va, mapped, rfl⟩).resolve_right image
  obtain ⟨f, listed, same⟩ := List.mem_map.mp (used ▸ inUse)
  have trace := effect.trace
  have pool := effect.pool
  have ptes := effect.ptes
  rw [if_pos mapped] at trace pool
  simp only [if_pos mapped] at ptes
  have call := pmmEnv_free pool
  rw [address, ← same, ← pfn_page, ok.hart] at call
  rw [address, ← same, ← pfn_page, addr_pfn] at slot
  obtain ⟨next, _, _, _, interval⟩ := inv.free listed room slot call
  have erased : handed k'.trace = (handed k.trace).erase (frameOf (pteOf k k.current va)) := by
    rw [trace, address]
    change (handed k.trace).erase (frameOf (pteOf k k.current va) * PGSIZE / PGSIZE) = _
    rw [Nat.mul_div_cancel _ (by decide)]
  refine Sound.good ⟨⟨effect.tp.trans ok.hart, ⟨frames.erase f, ?_, next⟩, ?_, ?_⟩, ?_⟩ sane
  · rw [erased, used, ← same, List.map_erase pageOfPfn_injective]
  · rw [interval]
    exact ok.image
  · rw [trace]
    refine ⟨?_, ok.once⟩
    rw [address, Nat.mul_div_cancel _ (by decide)]
    exact inUse
  · rintro g ⟨pid, inside', va', valid, frame⟩
    have old := (effect.inside pid).mp inside'
    rw [ptes pid old, editPte] at valid frame
    split_ifs at valid frame with here
    · exact absurd valid (by decide)
    · refine (good.space.kept g ⟨pid, old, va', valid, frame⟩).imp (fun member => ?_) id
      rw [erased]
      refine (List.mem_erase_of_ne fun equal => here ?_).mpr member
      exact single pid old va' valid (frame.trans equal)

/-- A step that releases pages of their last owner only keeps allocator and address spaces intact. -/
theorem Good.releases {k k' : Kernel Pool} {own : Owner} {op : Op} (good : Good (pmmSupply lay) k own)
    (step : Step pmmEnv lay k op k') (safe : Safe k op) (hart : HartId op) (releases : Releases lay k op) :
    ∃ own', Good (pmmSupply lay) k' own' := by
  have enabled := step.1
  cases good.outcome step safe (good.sound.pool.entry hart) with
  | good own' good' _ => exact ⟨own', good'⟩
  | freed number before current good₁ sane effect after tp =>
    have inside := (before.hasSpace _).mpr enabled.1
    rw [← current] at inside
    have good₂ := effect.good ((releases number).saved before current) good₁ inside sane
    exact ⟨own, after.quiet.good good₂ ((pmmSupply lay).stable after.pool after.trace tp good₂.space.ok)⟩
  | fault before current good₁ inside valid effect after tp =>
    cases effect with
    | alone _ replaced space =>
      have good₂ : Good (pmmSupply lay) _ own := ⟨space, replaced.procsOk good₁.procs (unshared_access _)⟩
      exact ⟨own, after.quiet.good good₂ ((pmmSupply lay).stable after.pool after.trace tp good₂.space.ok)⟩
    | copy _ _ _ shared _ _ _ _ _ =>
      have single : pmmEnv.refs (PTE2PA (pteOf k k.current _)) k ≤ 1 := releases
      rw [current, before.quiet.pteOf] at shared
      change _ < _ at shared
      rw [show pmmEnv.refs _ _ = _ from congrArg (fun pool => Pool.shares pool _) before.pool] at shared
      exact absurd shared (Nat.not_lt.mpr single)

/-- Such runs are careful, whatever is intact at their start. -/
theorem releases_careful {k₀ k : Kernel Pool} {ops : List Op} {own : Owner} (good : Good (pmmSupply lay) k₀ own)
    (run : Run (Guarded (fun k op => Safe k op ∧ HartId op ∧ Releases lay k op) (Step pmmEnv lay)) k₀ ops k) :
    Run (Guarded (Careful lay) (Step pmmEnv lay)) k₀ ops k ∧ ∃ own', Good (pmmSupply lay) k own' := by
  induction run generalizing own with
  | nil => exact ⟨.nil _, own, good⟩
  | cons head tail ih =>
    obtain ⟨⟨safe, hart, releases⟩, step⟩ := head
    obtain ⟨own', good'⟩ := good.releases step safe hart releases
    obtain ⟨rest, last⟩ := ih good'
    exact ⟨.cons ⟨⟨good.sound, safe, hart⟩, step⟩ rest, last⟩

/-- In every run whose steps release pages of their last owner only, no process maps a frame of the
pool, and no page is released twice. -/
theorem no_freed_frame_mapped {k₀ k : Kernel Pool} {ops : List Op} (boot : BootState lay k₀)
    (run : Run (Guarded (fun k op => Safe k op ∧ HartId op ∧ Releases lay k op) (Step pmmEnv lay)) k₀ ops k) :
    NoFreedMapped k := by
  obtain ⟨_, own, good⟩ := releases_careful boot.good run
  exact good.sound.noFreedMapped

private theorem releases_of_calm {k : Kernel Pool} {op : Op} (quiet : calm op = true) : Releases lay k op := by
  cases op with
  | trap regs sepc cause =>
    cases cause with
    | ecall => exact fun number => absurd number (of_decide_eq_true quiet).1
    | storePageFault stval => cases quiet
    | _ => trivial
  | _ => trivial

/-- Calm runs release nothing, and keep the allocator intact. -/
theorem calm_releases {k₀ k : Kernel Pool} {ops : List Op} {own : Owner} (good : Good (pmmSupply lay) k₀ own)
    (run : Run (Step pmmEnv lay) k₀ ops k) (quiet : ops.all calm = true) :
    Run (Guarded (fun k op => Safe k op ∧ HartId op ∧ Releases lay k op) (Step pmmEnv lay)) k₀ ops k ∧
      ∃ own', Good (pmmSupply lay) k own' := by
  have steps := List.all_eq_true.mp quiet
  obtain ⟨careful, last⟩ := calm_careful run steps good
  refine ⟨careful.imp fun op member s t step => ?_, last⟩
  exact ⟨⟨step.1.2.1, step.1.2.2, releases_of_calm (steps op member)⟩, step.2⟩

/-- A page that a system call of the running process has just mapped is mapped once. -/
private theorem Good.allocated_once {k k' : Kernel Pool} {own : Owner} (good : Good (pmmSupply lay) k own)
    {regs : Regs} {sepc a : ℕ} (number : regs .a0 = SYS_user_allocate_page) (hart : regs .tp < NCPU)
    (step : Step pmmEnv lay k (.trap regs sepc .ecall) k')
    (before : has (pteOf k k.current a) PTE_V = false) (after : has (pteOf k' k.current a) PTE_V = true) :
    MappedOnce (lay.trapSecStart / PGSIZE) k' k.current a := by
  obtain ⟨live, call⟩ := step
  have handled : smodeTrapHandler pmmEnv lay .ecall (k.entered regs sepc) = .ok () k' := call
  obtain ⟨k₁, k₂, saved, current, tp, served, saved₂, _⟩ := trap_served handled
  rw [← saved.quiet.pteOf] at before
  rw [saved₂.quiet.pteOf] at after
  have entry : EntryOk (pmmSupply lay) k (.trap regs sepc .ecall) := good.sound.pool.entry hart
  have good₁ : Good (pmmSupply lay) k₁ own := saved.quiet.good good (entry k₁ saved.pool saved.trace tp)
  have live₁ : Live k₁ k₁.current := by rwa [current, saved.live]
  rw [← current] at before after ⊢
  cases served with
  | allocatePage _ inner =>
    obtain ⟨_, _, _, once⟩ := (good₁.sysUserAllocatePage live₁).of_ok inner
    exact (once a before after).saved saved₂
  | freePage other _ => exact absurd (number.symm.trans other) (by decide)
  | fork other _ => exact absurd (number.symm.trans other) (by decide)
  | exit other => exact absurd (number.symm.trans other) (by decide)
  | nothing =>
    rw [before] at after
    exact absurd after (by decide)

/-- What a system call of the running process has just mapped can be released, if it is no recorded page
and the slot above the live ones still names its frame. -/
private theorem Good.releasable {k k' : Kernel Pool} {own : Owner} (good : Good (pmmSupply lay) k own)
    {regs regs' : Regs} {sepc sepc' : ℕ} (number : regs .a0 = SYS_user_allocate_page)
    (hart : regs .tp < NCPU) (step : Step pmmEnv lay k (.trap regs sepc .ecall) k')
    (before : has (pteOf k k.current (regs' .a1)) PTE_V = false) (current : k'.current = k.current)
    (after : has (pteOf k' k'.current (regs' .a1)) PTE_V = true)
    (free : FreeOk (k'.procs k'.current).userHeap (regs' .a1))
    (slot : Returns k'.pool.pmm (PTE2PA (pteOf k' k'.current (regs' .a1)))) :
    Safe k' (.trap regs' sepc' .ecall) ∧ Releases lay k' (.trap regs' sepc' .ecall) := by
  have once := good.allocated_once number hart step before (current ▸ after)
  rw [← current] at once
  exact ⟨fun _ => free, fun _ => ⟨once, slot⟩⟩

/-- The second page of the heap. -/
def secondPage : ℕ := USER_FREE_ADDRESS_START + PGSIZE

/-- A process allocates two pages and releases the second one. -/
def smallRelease : List Op :=
  smallStart ++ [.trap (request SYS_user_allocate_page 0) 0 .ecall,
    .trap (request SYS_user_allocate_page 0) 0 .ecall,
    .trap (request SYS_user_free_page secondPage) 0 .ecall]

/-- The page that is released is the one that the second call mapped, so its owner is the last one. -/
theorem smallRelease_run :
    ∃ k, Run (Guarded (fun k op => Safe k op ∧ HartId op ∧ Releases smallLayout k op) (Step pmmEnv smallLayout))
      smallKernel smallRelease k ∧ HasSpace k 0 ∧ Live k k.current ∧ (k.procs 0).userHeap.freePagesCount = 1 ∧
      returned (fun _ _ => true) (perform pmmEnv smallLayout (.trap (request SYS_user_fork 0) 0 .ecall) k) =
      true := by
  have checked : (execute pmmEnv smallLayout
      (smallStart ++ [.trap (request SYS_user_allocate_page 0) 0 .ecall]) smallKernel).any
      (fun k₁ => decide (has (pteOf k₁ k₁.current secondPage) PTE_V = false) &&
        (execute pmmEnv smallLayout [.trap (request SYS_user_allocate_page 0) 0 .ecall] k₁).any fun k₂ =>
          decide (k₂.current = k₁.current ∧ has (pteOf k₂ k₂.current secondPage) PTE_V = true ∧
            FreeOk (k₂.procs k₂.current).userHeap secondPage ∧
            Returns k₂.pool.pmm (PTE2PA (pteOf k₂ k₂.current secondPage))) &&
          (execute pmmEnv smallLayout [.trap (request SYS_user_free_page secondPage) 0 .ecall] k₂).any fun k =>
            decide (HasSpace k 0 ∧ Live k k.current ∧ (k.procs 0).userHeap.freePagesCount = 1) &&
            returned (fun _ _ => true)
              (perform pmmEnv smallLayout (.trap (request SYS_user_fork 0) 0 .ecall) k)) = true := by
    decide +kernel
  obtain ⟨k₁, run₁, check₁⟩ := run_of_check checked
  obtain ⟨vacant, checked₂⟩ := Bool.and_eq_true_iff.mp check₁
  obtain ⟨k₂, run₂, check₂⟩ := run_of_check checked₂
  obtain ⟨state, checked₃⟩ := Bool.and_eq_true_iff.mp check₂
  obtain ⟨current, mapped, free, slot⟩ := of_decide_eq_true state
  obtain ⟨k, run₃, check₃⟩ := run_of_check checked₃
  obtain ⟨last, forks⟩ := Bool.and_eq_true_iff.mp check₃
  obtain ⟨inside, live, count⟩ := of_decide_eq_true last
  -- the run up to the release is calm
  obtain ⟨guarded₁, own₁, good₁⟩ := calm_releases smallKernel_boot.good run₁ (by decide)
  obtain ⟨guarded₂, _⟩ := calm_releases good₁ run₂ (by decide)
  obtain ⟨safe, releases⟩ := @Good.releasable _ _ _ _ good₁ _ (request SYS_user_free_page secondPage) _ 0 rfl
    Nat.one_pos (Run.single_iff.mp run₂) (of_decide_eq_true vacant) current mapped free slot
  have release : Guarded (fun k op => Safe k op ∧ HartId op ∧ Releases smallLayout k op)
      (Step pmmEnv smallLayout) k₂ (.trap (request SYS_user_free_page secondPage) 0 .ecall) k :=
    ⟨⟨safe, Nat.one_pos, releases⟩, Run.single_iff.mp run₃⟩
  exact ⟨k, guarded₁.append (guarded₂.append (Run.single_iff.mpr release)), inside, live, count, forks⟩

/-- A process allocates two pages, releases the second one and forks. -/
theorem no_freed_frame_mapped_small :
    ∃ k, Run (Guarded (fun k op => Safe k op ∧ HartId op ∧ Releases smallLayout k op) (Step pmmEnv smallLayout))
      smallKernel (smallRelease ++ [.trap (request SYS_user_fork 0) 0 .ecall]) k ∧ NoFreedMapped k := by
  obtain ⟨k, run, _, live, _, forks⟩ := smallRelease_run
  obtain ⟨_, k', call, _⟩ := returned_eq_true forks
  have last : Guarded (fun k op => Safe k op ∧ HartId op ∧ Releases smallLayout k op)
      (Step pmmEnv smallLayout) k
      (.trap (request SYS_user_fork 0) 0 .ecall) k' :=
    ⟨⟨fun number => absurd number (by decide), Nat.one_pos, releases_of_calm (by decide)⟩, live, call⟩
  have whole := run.append (.cons last (.nil k'))
  exact ⟨k', whole, no_freed_frame_mapped smallKernel_boot whole⟩

/-- After a `fork`, the copy that the parent gets of its stack page is in the page cache. -/
theorem freed_copy_mapped_small : ∃ k, BootState smallLayout smallKernel ∧
    Run (Step pmmEnv smallLayout) smallKernel
    (smallStart ++ [.trap (request SYS_user_fork 0) 0 .ecall,
      .trap (request 0 0) 0 (.storePageFault STACK_PAGE)]) k ∧
    ¬ NoFreedMapped k := by
  have checked : (execute pmmEnv smallLayout (smallStart ++ [.trap (request SYS_user_fork 0) 0 .ecall,
      .trap (request 0 0) 0 (.storePageFault STACK_PAGE)]) smallKernel).any (fun k => decide (HasSpace k 0 ∧
        (k.pool.pmm.caches 0).count ≠ 0 ∧ has (pteOf k 0 STACK_PAGE) PTE_V = true ∧
        frameOf (pteOf k 0 STACK_PAGE) =
        pageOfPfn ((k.pool.pmm.caches 0).objs ((k.pool.pmm.caches 0).count - 1)))) = true := by
    decide +kernel
  obtain ⟨k, run, check⟩ := run_of_check checked
  obtain ⟨inside, positive, valid, frame⟩ := of_decide_eq_true check
  refine ⟨k, smallKernel_boot, run, fun none =>
    none.unmapped _ (Or.inl ?_) ⟨0, inside, STACK_PAGE, valid, frame⟩⟩
  exact List.mem_map.mpr ⟨_, List.mem_range.mpr (Nat.sub_one_lt positive), rfl⟩

end Pke.Proofs
