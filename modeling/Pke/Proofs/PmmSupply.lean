import Pke.Proofs.System
import Pke.Proofs.PageCache

/-! # The kernel on the allocator of `pmm.c`

`pmmSupply` shows that an intact page cache is a `Supply` for the rest of the kernel. `Sound` says that the
cache is intact and that no process maps a page that was given back; runs whose steps start in such
states keep the invariant of the processes.
-/

namespace Pke.Proofs

open Pke.Lib Pke.Model

variable {lay : Layout}

/-- The page number of a frame of `pmm.c`. -/
def pageOfPfn (f : ℕ) : ℕ := f + DRAM_BASE / PGSIZE

theorem pfn_page (f : ℕ) : PFN_TO_ADDR f = pageOfPfn f * PGSIZE := by
  simp only [PFN_TO_ADDR, pageOfPfn, DRAM_BASE, PGSIZE]
  omega

theorem pageOfPfn_injective : Function.Injective pageOfPfn := fun _ _ same => Nat.add_right_cancel same

/-- Every page that was passed to `pfree` was in use then. -/
def FreedOnce : List PageEvent → Prop
  | [] => True
  | .free pa :: rest => pa / PGSIZE ∈ handed rest ∧ FreedOnce rest
  | _ :: rest => FreedOnce rest

private theorem freedOnce_logs {e : PageEvent} (log : Logs e) {trace : List PageEvent}
    (once : FreedOnce trace) :
    FreedOnce (e :: trace) := by
  cases e with
  | free pa => exact log.elim
  | _ => exact once

/-- The allocator is intact: the hart is hart 0, and the pages in use are those that the cache and the buddy
system do not hold. -/
structure PoolOk (lay : Layout) (k : Kernel Pool) : Prop where
  hart : k.tp = 0
  cache : ∃ frames, handed k.trace = frames.map pageOfPfn ∧ CacheInv k.pool.pmm frames
  image : ∀ f ∈ managed k.pool.pmm, lay.trapSecStart < PFN_TO_ADDR f ∧ f < 32768
  once : FreedOnce k.trace

theorem pageOfPfn_image {f : ℕ} (above : lay.trapSecStart < PFN_TO_ADDR f) :
    pageOfPfn f ≠ lay.trapSecStart / PGSIZE := by
  intro same
  rw [pfn_page, same, trapSec_page] at above
  exact lt_irrefl _ above

/-- A frame that is held or cached is managed. -/
theorem CacheInv.managed {s : Pmm} {held : List ℕ} (inv : CacheInv s held) {f : ℕ}
    (member : f ∈ held ++ cached s 0) :
    f ∈ Proofs.managed s := by
  obtain ⟨lists, pool⟩ := inv.pool
  have inside := (BuddyInv.owned pool (f, 0) (List.mem_map.mpr ⟨f, member, rfl⟩)).2.2.1
  exact inside (mem_span_self _)

private theorem pmmEnv_alloc {k : Kernel Pool} {pa : ℕ} {pool : Pool} (call : pmmEnv.alloc k = .ok pa pool) :
    allocPage k.tp k.pool.pmm = .ok pa pool.pmm := by
  simp only [pmmEnv] at call
  split at call
  · rename_i inner
    obtain ⟨rfl, rfl⟩ := EStateM.Result.ok.inj call
    exact inner
  · cases call

theorem pmmEnv_free {k : Kernel Pool} {pa : ℕ} {pool : Pool} (call : pmmEnv.free pa k = .ok () pool) :
    pfree k.tp pa k.pool.pmm = .ok () pool.pmm := by
  simp only [pmmEnv] at call
  split at call
  · rename_i inner
    obtain ⟨-, rfl⟩ := EStateM.Result.ok.inj call
    exact inner
  · cases call

/-- `alloc_page` from an intact cache. -/
theorem PoolOk.alloc {k : Kernel Pool} {pa : ℕ} {pool : Pool} (ok : PoolOk lay k)
    (call : pmmEnv.alloc k = .ok pa pool) :
    ∃ f, pa = f * PGSIZE ∧ KERN_BASE ≤ f * PGSIZE ∧ f < 2 ^ 44 ∧ f ∉ handed k.trace ∧
      f ≠ lay.trapSecStart / PGSIZE ∧ PoolOk lay (k.took pa pool) := by
  obtain ⟨frames, used, inv⟩ := ok.cache
  have inner := pmmEnv_alloc call
  rw [ok.hart] at inner
  obtain ⟨f, cachedF, rfl, fresh, inv', _, same⟩ := inv.alloc inner
  obtain ⟨above, small⟩ := ok.image f (inv.managed (List.mem_append_right _ cachedF))
  rw [pfn_page]
  refine ⟨pageOfPfn f, rfl, ?_, ?_, ?_, pageOfPfn_image above, ok.hart, ⟨f :: frames, ?_, inv'⟩, ?_, ok.once⟩
  · rw [← pfn_page]
    exact lay.image.trans above.le
  · simp only [pageOfPfn, DRAM_BASE, PGSIZE]
    omega
  · rw [used]
    intro member
    obtain ⟨g, listed, equal⟩ := List.mem_map.mp member
    exact fresh (pageOfPfn_injective equal ▸ listed)
  · rw [Kernel.took, handed_alloc, used]
    rfl
  · change ∀ g ∈ Proofs.managed pool.pmm, _
    rw [same]
    exact ok.image

/-- The page cache as a supply of pages; a process may map the pages in use. -/
def pmmSupply (lay : Layout) : Supply pmmEnv (lay.trapSecStart / PGSIZE) where
  Ok := PoolOk lay
  Kept trace := {f | f ∈ handed trace}
  stable pool trace tp ok := by
    refine ⟨tp.trans ok.hart, ?_, ?_, trace ▸ ok.once⟩
    · rw [pool, trace]
      exact ok.cache
    · rw [pool]
      exact ok.image
  logged log ok := by
    refine ⟨ok.hart, ?_, ok.image, freedOnce_logs log ok.once⟩
    rw [Kernel.record, handed_logs log]
    exact ok.cache
  share _ ok := ⟨ok.hart, ok.cache, ok.image, ok.once⟩
  alloc ok kept call := by
    obtain ⟨f, address, ram, small, fresh, image, next⟩ := ok.alloc call
    exact ⟨f, address, ram, small, fresh, image, fun mapped => (kept f mapped).elim fresh image, next⟩
  keptLogged trace log := by rw [handed_logs log]
  keptAlloc f trace := by
    intro g member
    change g ∈ handed _
    rw [handed_alloc]
    rcases member with rfl | old
    · exact List.mem_cons_self
    · exact List.mem_cons_of_mem _ old

/-- The allocator is intact, and every mapped page is in use or holds the trap vector. -/
structure Sound (lay : Layout) (k : Kernel Pool) : Prop where
  pool : PoolOk lay k
  kept : ∀ f, Mapped k f → f ∈ handed k.trace ∨ f = lay.trapSecStart / PGSIZE

theorem Sound.good {k : Kernel Pool} {own : Owner} (sound : Sound lay k)
    (sane : Sane (lay.trapSecStart / PGSIZE) k own) :
    Good (pmmSupply lay) k own := ⟨⟨sane.shape, sound.pool, sound.kept⟩, sane.procs⟩

theorem Good.sound {k : Kernel Pool} {own : Owner} (good : Good (pmmSupply lay) k own) :
    Sound lay k := ⟨good.space.ok, good.space.kept⟩

/-- The kernel after `pmm_init` and `init_proc_pool`, for a kernel image that contains the trap vector. -/
structure BootState (lay : Layout) (k : Kernel Pool) : Prop where
  pmm : ∃ kernelEnd memSize before, lay.trapSecStart < kernelEnd ∧ before.events = [] ∧
    pmmInit kernelEnd memSize before = .ok () k.pool.pmm
  procs : ∀ i < NPROC, k.procs i = { zeroProcess with pid := i }
  hart : k.tp = 0
  trace : k.trace = []

theorem BootState.good {k : Kernel Pool} (boot : BootState lay k) : Good (pmmSupply lay) k fun _ => none := by
  obtain ⟨kernelEnd, memSize, before, above, clean, init⟩ := boot.pmm
  have image : KERN_BASE ≤ kernelEnd := lay.image.trans above.le
  obtain ⟨inv, _⟩ := Booted.cacheInv ⟨kernelEnd, memSize, before, image, clean, init⟩
  refine Sound.good ⟨⟨boot.hart, ⟨[], by rw [boot.trace]; rfl, inv⟩,
    fun f member => ?_, by rw [boot.trace]; trivial⟩, ?_⟩
    (reset_sane _ boot.procs)
  · obtain ⟨low, high⟩ := pmmInit_managed image clean init f member
    exact ⟨lt_of_lt_of_le above low, high⟩
  · rintro f ⟨pid, inside, _⟩
    exact absurd (by rw [boot.procs pid inside.1]; rfl) inside.2.1

/-- A trap whose saved `tp` is the number of a hart. -/
def HartId : Op → Prop
  | .trap regs _ _ => regs .tp < NCPU
  | _ => True

theorem PoolOk.entry {k : Kernel Pool} {op : Op} (ok : PoolOk lay k) (hart : HartId op) :
    EntryOk (pmmSupply lay) k op := by
  cases op with
  | trap regs sepc cause =>
    intro k₁ pool trace tp
    refine (pmmSupply lay).stable pool trace ?_ ok
    rw [tp, ok.hart]
    exact Nat.lt_one_iff.mp hart
  | _ => trivial

/-- The steps of the runs below: the allocator is intact, the arguments are safe, and `tp` holds a
hart number. -/
def Careful (lay : Layout) (k : Kernel Pool) (op : Op) : Prop := Sound lay k ∧ Safe k op ∧ HartId op

/-- Careful runs keep the invariant of the processes. -/
theorem careful_sane {k₀ k : Kernel Pool} {ops : List Op} (boot : BootState lay k₀)
    (run : Run (Guarded (Careful lay) (Step pmmEnv lay)) k₀ ops k) :
    ∃ own, Sane (lay.trapSecStart / PGSIZE) k own := by
  have keep : ∀ (k : Kernel Pool) (op : Op) (k' : Kernel Pool),
      (∃ own, Sane (lay.trapSecStart / PGSIZE) k own) →
      Guarded (Careful lay) (Step pmmEnv lay) k op k' → ∃ own, Sane (lay.trapSecStart / PGSIZE) k' own := by
    rintro k op k' ⟨own, sane⟩ ⟨⟨sound, safe, hart⟩, step⟩
    exact ((sound.good sane).outcome step safe (sound.pool.entry hart)).sane
  exact run.invariant keep ⟨_, boot.good.sane⟩

/-- Steps that pass no page to `pfree` and load no file. -/
def calm : Op → Bool
  | .allocProcess => true
  | .ready _ => true
  | .switchTo _ => true
  | .trap regs _ .ecall => regs .a0 ≠ SYS_user_free_page ∧ regs .tp < NCPU
  | _ => false

/-- Calm runs are careful and keep the allocator intact. -/
theorem calm_careful {k₀ k : Kernel Pool} {ops : List Op} (run : Run (Step pmmEnv lay) k₀ ops k)
    (steps : ∀ op ∈ ops, calm op = true) {own : Owner} (good : Good (pmmSupply lay) k₀ own) :
    Run (Guarded (Careful lay) (Step pmmEnv lay)) k₀ ops k ∧ ∃ own', Good (pmmSupply lay) k own' := by
  induction run generalizing own with
  | nil => exact ⟨.nil _, own, good⟩
  | cons head tail ih =>
    rename_i k₁ k₂ k₃ op rest
    have here := steps op List.mem_cons_self
    have safe : Safe k₁ op := by
      cases op with
      | load pid file => cases here
      | trap regs sepc cause =>
        cases cause with
        | ecall => exact fun number => absurd number (of_decide_eq_true here).1
        | _ => trivial
      | _ => trivial
    have hart : HartId op := by
      cases op with
      | trap regs sepc cause =>
        cases cause with
        | ecall => exact (of_decide_eq_true here).2
        | _ => cases here
      | _ => trivial
    have careful : Careful lay k₁ op := ⟨good.sound, safe, hart⟩
    cases good.outcome head safe (good.sound.pool.entry hart) with
    | good own' good' _ =>
      obtain ⟨rest, last⟩ := ih (fun op member => steps op (List.mem_cons_of_mem _ member)) good'
      exact ⟨.cons ⟨careful, head⟩ rest, last⟩
    | freed number _ _ _ _ _ _ _ => exact absurd number (of_decide_eq_true here).1
    | fault _ _ _ _ _ _ _ _ => cases here

/-- The addresses of a small kernel image. -/
def smallLayout : Layout where
  trapSecStart := 0x80001000
  procs := 0x80008000
  aligned := by decide
  image := by decide
  top := by decide

/-- The kernel after `init_proc_pool` on the given allocator. -/
def bootKernel (pmm : Pmm) : Kernel Pool where
  pool := ⟨pmm, fun _ => 0⟩
  mem _ _ := 0
  procs i := { zeroProcess with pid := i }
  current := 0
  readyQueueHead := none
  tp := 0
  varargs _ := 0
  trace := []

private theorem bootKernel_boot {pmm : Pmm} {kernelEnd memSize : ℕ} {before : Pmm}
    (image : lay.trapSecStart < kernelEnd) (clean : before.events = [])
    (init : pmmInit kernelEnd memSize before = .ok () pmm) :
    BootState lay (bootKernel pmm) :=
  ⟨⟨kernelEnd, memSize, before, image, clean, init⟩, fun _ _ => rfl, rfl, rfl⟩

/-- The small machine after boot. -/
def smallKernel : Kernel Pool := bootKernel smallBoot

theorem smallKernel_boot : BootState smallLayout smallKernel := bootKernel_boot (by decide) rfl smallBoot_init

/-- A process is started on the small machine. -/
def smallStart : List Op := [.allocProcess, .ready 0, .switchTo 0]

end Pke.Proofs
