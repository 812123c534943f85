import Pke.Proofs.PmmSupply
import Pke.Proofs.PoolCalls

/-! # The index of the per-CPU cache

`alloc_page` and `pfree` index `pcpu_caches` with `tp`. The trap vector leaves `tp` as the user set it, so the
index is one of a hart as long as every trap is taken with such a `tp`. `do_fork` stores the address of the
process structure in the `tp` of the child, whose next trap brings it into the kernel.
-/

namespace Pke.Proofs

open Pke.Lib Pke.Model

variable {lay : Layout}

/-- Every index of `pcpu_caches` that a call used is below `NCPU`. -/
def IndexValid (s : Pmm) : Prop := ∀ id, PmmEvent.cpu id ∈ s.events → id < NCPU

/-- Every index that was used between the two states is `id`. -/
def UsesIndex (id : ℕ) (s t : Pmm) : Prop := ∀ other, PmmEvent.cpu other ∈ t.events →
    PmmEvent.cpu other ∈ s.events ∨ other = id

namespace UsesIndex

variable {id : ℕ} {s t u : Pmm}

theorem refl (id : ℕ) (s : Pmm) : UsesIndex id s s := fun _ listed => .inl listed

theorem trans (first : UsesIndex id s t) (second : UsesIndex id t u) : UsesIndex id s u := by
  intro other listed
  rcases second other listed with old | same
  · exact first other old
  · exact .inr same

/-- One more event that names no other index. -/
theorem record {e : PmmEvent} (events : t.events = e :: s.events)
    (named : ∀ other, e = .cpu other → other = id) :
    UsesIndex id s t := by
  intro other listed
  rw [events] at listed
  rcases List.mem_cons.mp listed with same | old
  · exact .inr (named other same.symm)
  · exact .inl old

theorem quiet (same : t.events = s.events) : UsesIndex id s t := by
  intro other listed
  rw [same] at listed
  exact .inl listed

end UsesIndex

private theorem drained_usesIndex (id n : ℕ) (s : Pmm) : UsesIndex id s (drained id n s) := by
  induction n generalizing s with
  | zero => exact .refl id s
  | succ n ih =>
    refine UsesIndex.trans ?_ (ih _)
    exact .record (e := .objs _) rfl fun _ other => PmmEvent.noConfusion other

private theorem popped_usesIndex (id : ℕ) (s : Pmm) : UsesIndex id s (popped id s) :=
  .record (e := .objs _) rfl fun _ other => PmmEvent.noConfusion other

private theorem pushed_usesIndex (id pfn : ℕ) (s : Pmm) : UsesIndex id s (pushed id pfn s) :=
  .record (e := .objs _) rfl fun _ other => PmmEvent.noConfusion other

private theorem overrun_usesIndex (id : ℕ) (s : Pmm) : UsesIndex id s (overrun id s) :=
  .record (e := .objs _) rfl fun _ other => PmmEvent.noConfusion other

private theorem locked_usesIndex (id : ℕ) (s : Pmm)
    (b : Buddy) : UsesIndex id s { lockedOnce s with buddy := b } := by
  have acquire : UsesIndex id s (s.record .acquire) :=
    .record (e := .acquire) rfl fun _ other => PmmEvent.noConfusion other
  exact acquire.trans (.record (e := .release) rfl fun _ other => PmmEvent.noConfusion other)

/-- `alloc_page` uses the index in `tp`. -/
private theorem allocPage_usesIndex (tp : ℕ) (s : Pmm) : UsesIndex tp s (finalState (allocPage tp s)) := by
  have index : UsesIndex tp s (s.record (.cpu tp)) :=
    .record (e := .cpu tp) rfl fun _ same => (PmmEvent.cpu.inj same).symm
  rw [allocPage_eq]
  split_ifs
  · exact index
  · exact index.trans (.record (e := .acquire) rfl fun _ other => PmmEvent.noConfusion other)
  · exact index.trans (popped_usesIndex _ _)
  · exact index.trans (popped_usesIndex _ _)
  · exact index

/-- `pfree` uses the index in `tp`. -/
private theorem pfree_usesIndex (tp addr : ℕ) (s : Pmm) : UsesIndex tp s (finalState (pfree tp addr s)) := by
  have index : UsesIndex tp s (s.record (.cpu tp)) :=
    .record (e := .cpu tp) rfl fun _ same => (PmmEvent.cpu.inj same).symm
  rw [pfree_eq]
  dsimp only
  split_ifs
  · exact .refl _ _
  · exact locked_usesIndex _ _ _
  · exact index
  · have acquire : UsesIndex tp (s.record (.cpu tp))
      { (s.record (.cpu tp)).record .acquire with lock := true } :=
      .record (e := .acquire) rfl fun _ other => PmmEvent.noConfusion other
    have drain := (index.trans acquire).trans (drained_usesIndex tp 16 _)
    have release := drain.trans (u := { (drained tp 16 _).record .release with lock := false })
      (.record (e := .release) rfl fun _ other => PmmEvent.noConfusion other)
    exact release.trans (pushed_usesIndex _ _ _)
  · exact index.trans (pushed_usesIndex _ _ _)
  · exact index.trans (overrun_usesIndex _ _)
  · exact index

/-- The kernel keeps `tp`, and the indices it uses are `tp`. -/
def KeepsIndex (k k' : Kernel Pool) : Prop := k'.tp = k.tp ∧ UsesIndex k.tp k.pool.pmm k'.pool.pmm

private theorem keepsIndex_via : Via pmmEnv KeepsIndex where
  trans first second := ⟨second.1.trans first.1, first.2.trans (first.1 ▸ second.2)⟩
  quiet pool tp := ⟨tp, .quiet (by rw [pool])⟩
  alloc k := by
    have inner := allocPage_usesIndex k.tp k.pool.pmm
    simp only [PageEnv.allocPage, pmmEnv]
    cases call : allocPage k.tp k.pool.pmm with
    | ok pa pmm =>
      rw [call] at inner
      exact ⟨rfl, inner⟩
    | error e pmm =>
      rw [call] at inner
      exact ⟨rfl, inner⟩
  free pa k := by
    have inner := pfree_usesIndex k.tp pa k.pool.pmm
    simp only [PageEnv.pfree, pmmEnv]
    cases call : pfree k.tp pa k.pool.pmm with
    | ok _ pmm =>
      rw [call] at inner
      exact ⟨rfl, inner⟩
    | error e pmm =>
      rw [call] at inner
      exact ⟨rfl, inner⟩
  share _ _ := ⟨rfl, .refl _ _⟩

/-- What a step leaves of `tp` and of the indices used, whichever way it ends. -/
theorem perform_index {k : Kernel Pool} {op : Op} (hart : HartId op) (tp : k.tp < NCPU)
    (valid : IndexValid k.pool.pmm) :
    (finalState (perform pmmEnv lay op k)).tp < NCPU ∧
      IndexValid (finalState (perform pmmEnv lay op k)).pool.pmm := by
  have kept : ∀ {k k' : Kernel Pool}, KeepsIndex k k' → k.tp < NCPU → IndexValid k.pool.pmm →
      k'.tp < NCPU ∧ IndexValid k'.pool.pmm := by
    intro k k' keeps tp valid
    refine ⟨keeps.1 ▸ tp, fun id listed => ?_⟩
    rcases keeps.2 id listed with old | rfl
    · exact valid id old
    · exact tp
  have via := keepsIndex_via
  cases op with
  | allocProcess => exact kept (via.calm.bind via.calm.allocProcess (fun _ => via.calm.pure ()) k) tp valid
  | load pid file => exact kept (via.calm.loadBincodeFromHostElf pid file k) tp valid
  | ready pid => exact kept (via.insertToReadyQueue pid k) tp valid
  | switchTo pid => exact ⟨tp, valid⟩
  | trap regs sepc cause => exact kept (via.smodeTrapHandler cause (k.entered regs sepc)) hart valid
  | store va index word => exact ⟨tp, valid⟩

/-- `pmm_init` uses no index in `tp`. -/
private theorem BootState.indexValid {k : Kernel Pool} (boot : BootState lay k) : IndexValid k.pool.pmm := by
  obtain ⟨kernelEnd, memSize, before, -, clean, init⟩ := boot.pmm
  obtain ⟨mid, full, setup, loop, same⟩ := pmmInit_eq_ok.mp init
  have rounds : ∀ n (t : Pmm), (List.range n).forM (prefillSlot 0) mid = .ok () t → UsesIndex 0 mid t := by
    intro n
    induction n with
    | zero =>
      rintro t ⟨⟩
      exact .refl _ _
    | succ n ih =>
      intro t call
      rw [forM_range_succ, bind_eq_ok] at call
      obtain ⟨_, s, first, last⟩ := call
      obtain ⟨_, addr, s', take, rfl⟩ := prefillSlot_eq_ok.mp last
      obtain ⟨-, -, p, b, -, -, rfl⟩ := buddyAlloc_eq_ok.mp take
      refine ((ih s first).trans (locked_usesIndex 0 s (markTaken p b))).trans ?_
      exact .record (e := .objs n) rfl fun _ other => PmmEvent.noConfusion other
  obtain ⟨-, start⟩ := pmmSetup_eq_ok setup
  intro id listed
  rw [same] at listed
  rcases rounds _ full loop id listed with old | rfl
  · rw [start, clean] at old
    exact absurd old List.not_mem_nil
  · exact Nat.one_pos

/-- In every run whose traps are taken with the number of a hart in `tp`, and in the call that
follows it whether it returns or not, the per-CPU caches are indexed in bounds. -/
theorem percpu_index_valid {k₀ k : Kernel Pool} {ops : List Op} (boot : BootState lay k₀)
    (run : Run (Guarded (fun _ op => HartId op) (Step pmmEnv lay)) k₀ ops k) :
    IndexValid k.pool.pmm ∧ ∀ op, Enabled k op → HartId op →
      IndexValid (finalState (perform pmmEnv lay op k)).pool.pmm := by
  have keep : ∀ (k : Kernel Pool) (op : Op) (k' : Kernel Pool), k.tp < NCPU ∧ IndexValid k.pool.pmm →
      Guarded (fun _ op => HartId op) (Step pmmEnv lay) k op k' → k'.tp < NCPU ∧ IndexValid k'.pool.pmm := by
    rintro k op k' ⟨tp, valid⟩ ⟨hart, -, call⟩
    have next : (finalState (perform pmmEnv lay op k)).tp < NCPU ∧ _ := perform_index hart tp valid
    rwa [call] at next
  obtain ⟨tp, valid⟩ := run.invariant keep ⟨boot.hart ▸ Nat.one_pos, boot.indexValid⟩
  exact ⟨valid, fun op _ hart => (perform_index hart tp valid).2⟩

/-- A process allocates a page and forks, with 0 in `tp`. -/
theorem percpu_index_valid_small :
    ∃ k, Run (Guarded (fun _ op => HartId op) (Step pmmEnv smallLayout)) smallKernel
      (smallStart ++ [.trap (request SYS_user_allocate_page 0) 0 .ecall,
        .trap (request SYS_user_fork 0) 0 .ecall]) k ∧
      IndexValid k.pool.pmm ∧ ∀ op, Enabled k op → HartId op →
      IndexValid (finalState (perform pmmEnv smallLayout op k)).pool.pmm := by
  have checked : (execute pmmEnv smallLayout (smallStart ++ [.trap (request SYS_user_allocate_page 0) 0 .ecall,
      .trap (request SYS_user_fork 0) 0 .ecall]) smallKernel).any (fun _ => true) = true := by decide +kernel
  obtain ⟨k, run, _⟩ := run_of_check checked
  have guarded := (calm_careful run (by decide) smallKernel_boot.good).1.imp fun op _ s t
    (step : Guarded _ _ s op t) =>
    (⟨step.1.2.2, step.2⟩ : Guarded (fun _ op => HartId op) (Step pmmEnv smallLayout) s op t)
  exact ⟨k, guarded, percpu_index_valid smallKernel_boot guarded⟩

/-- The child of a `fork` returns to user mode with the address of its process structure in `tp`,
and asks for a page. -/
theorem percpu_index_child_small :
    ∃ k, BootState smallLayout smallKernel ∧
      Run (Step pmmEnv smallLayout) smallKernel
      (smallStart ++ [.trap (request SYS_user_fork 0) 0 .ecall,
        .trap (request SYS_user_exit 0) 0 .ecall, .switchTo 1])
      k ∧
      ¬ IndexValid (finalState (perform pmmEnv smallLayout
      (.trap (Function.update (request SYS_user_allocate_page 0) .tp
        ((k.procs k.current).frame.regs .tp)) 0 .ecall)
      k)).pool.pmm := by
  have checked : (execute pmmEnv smallLayout (smallStart ++ [.trap (request SYS_user_fork 0) 0 .ecall,
      .trap (request SYS_user_exit 0) 0 .ecall, .switchTo 1]) smallKernel).any (fun k => decide
      (PmmEvent.cpu (smallLayout.procAddr 1) ∈ (finalState (perform pmmEnv smallLayout (.trap (Function.update
        (request SYS_user_allocate_page 0) .tp ((k.procs k.current).frame.regs .tp)) 0 .ecall)
        k)).pool.pmm.events)) = true := by
    decide +kernel
  obtain ⟨k, run, check⟩ := run_of_check checked
  refine ⟨k, smallKernel_boot, run, fun valid => ?_⟩
  exact absurd (valid _ (of_decide_eq_true check)) (by decide)

end Pke.Proofs
