import Pke.Proofs.ForestCalls
import Pke.Proofs.ForkRuns

/-! # The pages that `do_fork` takes

`alloc_process` maps a new page as the stack of the child, and every other page that it takes is
found from the process structure of the child. The loop of `do_fork` adds tables to the child and
writes leaf entries. If the parent does not map its stack page, the entry of the child for it stays,
and no page is lost.
-/

namespace Pke.Proofs

open Pke.Lib Pke.Model

variable {σ : Type} {env : PageEnv σ} {trapSec : ℕ}

/-- Parent and child during `do_fork`. -/
structure Family (P : Pages env trapSec) (parent child : ℕ) (k : Kernel σ) (own : ℕ → Owner) : Prop where
  ok : P.Ok k
  forest : Forest k own
  insideP : HasSpace k parent
  insideC : HasSpace k child
  apart : parent ≠ child

/-- What a part of the loop of `do_fork` does: it builds up the child, and a stack page that only
the child maps stays. -/
structure Copies (P : Pages env trapSec) (parent child : ℕ) (k : Kernel σ) (own : ℕ → Owner) (k' : Kernel σ)
    (own' : ℕ → Owner) : Prop where
  builds : Builds P child k own k' own'
  stack : has (pteOf k parent STACK_PAGE) PTE_V = false → has (pteOf k child STACK_PAGE) PTE_V = true →
    has (pteOf k' parent STACK_PAGE) PTE_V = false ∧ pteOf k' child STACK_PAGE = pteOf k child STACK_PAGE

namespace Copies

variable {P : Pages env trapSec} {parent child : ℕ} {k k' k'' : Kernel σ} {own own' own'' : ℕ → Owner}

theorem refl (family : Family P parent child k own) : Copies P parent child k own k own :=
  ⟨.refl family.ok family.forest, fun vacant _ => ⟨vacant, rfl⟩⟩

theorem trans (first : Copies P parent child k own k' own') (second : Copies P parent child k' own' k'' own'') :
    Copies P parent child k own k'' own'' := by
  refine ⟨first.builds.trans second.builds, fun vacant valid => ?_⟩
  obtain ⟨vacant', same⟩ := first.stack vacant valid
  obtain ⟨vacant'', same'⟩ := second.stack vacant' (by rwa [same])
  exact ⟨vacant'', same'.trans same⟩

theorem family (copies : Copies P parent child k own k' own') (family : Family P parent child k own) :
    Family P parent child k' own' :=
  ⟨copies.builds.ok, copies.builds.forest, (copies.builds.hasSpace parent).mpr family.insideP,
    (copies.builds.hasSpace child).mpr family.insideC, family.apart⟩

end Copies

namespace Family

variable {P : Pages env trapSec} {parent child : ℕ} {k k' : Kernel σ} {own : ℕ → Owner}

/-- A part of the loop after which other parts follow. -/
theorem andThen {α β : Type} {x : Exec (Kernel σ) α} {f : α → Exec (Kernel σ) β}
    (family : Family P parent child k own) (first : Yields x k fun _ k' => ∃ own',
      Copies P parent child k own k' own')
    (second : ∀ a k' own', Family P parent child k' own' →
      Yields (f a) k' fun _ k'' => ∃ own'', Copies P parent child k' own' k'' own'') :
    Yields (x >>= f) k fun _ k' => ∃ own', Copies P parent child k own k' own' := by
  refine Ensures.bind first ?_
  rintro a k' ⟨own', copies⟩
  refine Ensures.mono (second a k' own' (copies.family family)) ?_
  rintro _ k'' ⟨own'', copies'⟩
  exact ⟨own'', copies.trans copies'⟩

/-- A counting loop of such parts. -/
theorem rounds {body : ℕ → Exec (Kernel σ) Unit} (family : Family P parent child k own)
    (round : ∀ i k own, Family P parent child k own →
      Yields (body i) k fun _ k' => ∃ own', Copies P parent child k own k' own') (n : ℕ) :
    Yields ((List.range n).forM body) k fun _ k' => ∃ own', Copies P parent child k own k' own' := by
  apply Ensures.forM_range
  · exact ⟨own, .refl family⟩
  rintro i _ k' ⟨own', copies⟩
  refine Ensures.mono (round i k' own' (copies.family family)) ?_
  rintro _ k'' ⟨own'', copies'⟩
  exact ⟨own'', copies.trans copies'⟩

/-- Changing fields of the child. -/
theorem setChild (family : Family P parent child k own) {change : Process → Process}
    (space : ∀ p, SameSpace p (change p)) :
    Copies P parent child k own (k.setProc child change) own := by
  obtain ⟨builds, ptes⟩ := family.forest.setProc family.ok space
  exact ⟨builds, fun vacant _ => ⟨by rwa [ptes], ptes child _⟩⟩

/-- The second half of sharing a page: the child gets the entry that the slot of the parent holds. -/
private theorem shareTail {t pte va : ℕ} (family : Family P parent child k own) (named : own parent t ≠ none)
    (entry : k.mem t (PX 0 va) = pte) (valid : has pte PTE_V = true) :
    Yields (do
      env.getPage (PTE2PA ((← get).mem t (PX 0 va)))
      match ← pageWalk env ((← get).procs child).pagetable va 0 true with
      | none => throw (.panic "do_fork: page_walk failed to allocate leaf page table.\n")
      | some childSlot => setPte childSlot ((← get).mem t (PX 0 va))) k fun _ k' => ∃ own',
      Builds P child k own k' own' ∧
        (∀ va', pteOf k' parent va' = pteOf k parent va') ∧
        ∀ va', pteOf k' child va' = if pageOf va' = pageOf va then pte else pteOf k child va' := by
  obtain ⟨ok, forest, insideP, insideC, apart⟩ := family
  refine Ensures.step (get_apply k) ?_
  refine Ensures.step (modify_apply _ _) ?_
  refine Ensures.step (get_apply _) ?_
  have ok₁ := P.share (PTE2PA (k.mem t (PX 0 va))) ok
  have forest₁ : Forest { k with pool := env.share (PTE2PA (k.mem t (PX 0 va))) k } own :=
    forest.same rfl (fun _ taken => taken) fun _ inside => ⟨inside, rfl⟩
  refine Ensures.bind ((forest₁.site ok₁ insideC).walk (trivialStops env) fun _ _ => trivial) ?_
  rintro _ k₂ ⟨_, _, own₂, t', rfl, grafts, found, same⟩
  obtain ⟨builds, others⟩ := forest₁.graft insideC grafts
  refine Ensures.step (get_apply k₂) ?_
  have kept : k₂.mem t (PX 0 va) = pte := by
    have data := forest.apart parent child insideP insideC apart t named
    rw [(grafts.data t (forest.taken parent insideP t named) data).2]
    exact entry
  rw [kept]
  have shared : Builds P child k own { k with pool := env.share (PTE2PA (k.mem t (PX 0 va))) k } own :=
    .same ok₁ forest₁ rfl rfl
  have before := shared.trans builds
  have table : leafTable k₂.mem (rootOf k₂ child) va = some t' := by
    rw [before.root child]
    exact found
  obtain ⟨forest₃, ptes, others'⟩ := builds.forest.setLeaf
    ((before.hasSpace child).mpr insideC) table fun _ => valid
  have stored : Builds P child k₂ _ (k₂.setWord t' (PX 0 va) pte) _ :=
    .same (P.stable (k := k₂) rfl rfl rfl builds.ok) forest₃ rfl rfl
  refine ⟨_, before.trans stored, fun va' => ?_, fun va' => ?_⟩
  · rw [others' parent apart ((before.hasSpace parent).mpr insideP), others parent apart insideP]
    rfl
  · rw [ptes, pteOf, before.root child]
    exact congrArg (ite _ pte) (same va')

/-- One page of a stack or heap region. -/
theorem sharePage (family : Family P parent child k own) (va : ℕ) :
    Yields (forkSharePage env parent child va) k fun _ k' => ∃ own', Copies P parent child k own k' own' := by
  obtain ⟨ok, forest, insideP, insideC, apart⟩ := family
  refine forkSharePage_cases (fun _ => ⟨own, .refl ⟨ok, forest, insideP, insideC, apart⟩⟩) fun t
    found valid => ?_
  have validS : has (shared (pteOf k parent va)) PTE_V = true := (shared_access _).1.trans valid
  obtain ⟨forest₁, ptes₁, others₁⟩ := forest.setLeaf insideP found fun _ => validS
  have ok₁ : P.Ok (k.setWord t (PX 0 va) (shared (pteOf k parent va))) := P.stable (k := k) rfl rfl rfl ok
  have entry : (k.setWord t (PX 0 va) (shared (pteOf k parent va))).mem t (PX 0 va) =
    shared (pteOf k parent va) := by
    simp [Kernel.setWord]
  have rooted := forest.rooted parent insideP
  have named : own parent t ≠ none := by
    rw [rooted.tables.leafTable_owner rooted.root found]
    exact Option.some_ne_none _
  have lowered : Builds P child k own (k.setWord t (PX 0 va) (shared (pteOf k parent va))) own :=
    .same ok₁ forest₁ rfl rfl
  refine Ensures.mono (shareTail ⟨ok₁, forest₁, insideP, insideC, apart⟩ named entry validS) ?_
  rintro _ k' ⟨own', builds, ptesP, ptesC⟩
  refine ⟨own', lowered.trans builds, fun vacant _ => ?_⟩
  have page : pageOf STACK_PAGE ≠ pageOf va := by
    intro here
    rw [pteOf_congr here, valid] at vacant
    cases vacant
  rw [ptesP, ptes₁, if_neg page, ptesC, if_neg page, others₁ child apart.symm insideC]
  exact ⟨vacant, rfl⟩

/-- `lookup_pa` changes nothing. -/
private theorem lookupPa_same (k : Kernel σ)
    (dir va : ℕ) : Yields (lookupPa env dir va) k fun _ k' => k' = k := by
  rw [lookupPa]
  split_ifs
  · exact rfl
  refine lookUp_same fun slot? => ?_
  cases slot? with
  | none => exact rfl
  | some slot =>
    refine Ensures.step (get_apply k) ?_
    dsimp only
    split_ifs
    · exact rfl
    · exact rfl

/-- One page of a code region. -/
theorem codePage (family : Family P parent child k own) (va : ℕ) :
    Yields (forkCodePage env parent child va) k fun _ k' => ∃ own', Copies P parent child k own k' own' := by
  rw [forkCodePage]
  refine Ensures.step (get_apply k) ?_
  refine Ensures.bind (lookupPa_same k _ va) ?_
  rintro pa _ rfl
  refine Ensures.step (get_apply _) ?_
  refine Ensures.mono (family.forest.userVmMap family.ok family.insideC va PGSIZE pa _) ?_
  rintro _ k' ⟨own', builds, _, others, kept⟩
  refine ⟨own', builds, fun vacant valid => ⟨?_, kept _ valid⟩⟩
  rwa [others parent family.apart family.insideP]

/-- One round of the loop of `do_fork` over the regions of the parent. -/
theorem region (family : Family P parent child k own) (i : ℕ) :
    Yields (forkRegion env parent child i) k fun _ k' => ∃ own', Copies P parent child k own k' own' := by
  rw [forkRegion]
  refine Ensures.step (get_apply k) ?_
  cases type : ((k.procs parent).regions i).segType <;> simp only [type]
  case CONTEXT_SEGMENT => exact ⟨own, family.setChild fun _ => ⟨rfl, rfl, rfl, rfl, rfl⟩⟩
  case STACK_SEGMENT => exact family.rounds (fun n _ _ family => family.sharePage _) _
  case HEAP_SEGMENT =>
    refine family.andThen (family.rounds (fun n _ _ family => family.sharePage _) _) fun _ k' own' family' => ?_
    exact ⟨own', family'.setChild fun _ => ⟨rfl, rfl, rfl, rfl, rfl⟩⟩
  case CODE_SEGMENT =>
    refine Ensures.step (get_apply k) ?_
    refine Ensures.bind (lookupPa_same k _ _) ?_
    rintro _ _ rfl
    refine family.andThen (family.rounds (fun n _ _ family => family.codePage _) _) fun _ k' own' family' => ?_
    exact ⟨own', family'.setChild fun _ => ⟨rfl, rfl, rfl, rfl, rfl⟩⟩
  case SYSTEM_SEGMENT => exact ⟨own, .refl family⟩
  case DATA_SEGMENT => exact ⟨own, .refl family⟩

end Family

/-- A `do_fork` that returns. -/
theorem doFork_ok {lay : Layout} {k k' : Kernel σ} {parent child : ℕ}
    (call : doFork env lay parent k = .ok child k') :
    ∃ k₁ k₂, allocProcess env lay k = .ok child k₁ ∧
      (List.range (k₁.procs parent).totalMappedRegion).forM (forkRegion env parent child) k₁ = .ok () k₂ ∧
      ForkEnded lay parent child k₂ k' := by
  rw [doFork] at call
  obtain ⟨i, k₁, spawn, rest⟩ := bind_eq_ok.mp call
  rw [bind_of_ok (get_apply k₁)] at rest
  obtain ⟨_, k₂, loop, tail⟩ := bind_eq_ok.mp rest
  obtain ⟨rfl, ended⟩ := (fork_end lay parent i k₂).of_ok tail
  exact ⟨k₁, k₂, spawn, loop, ended⟩

theorem ForkEnded.kernelPage {lay : Layout} {parent child : ℕ} {k k' : Kernel σ}
    (ended : ForkEnded lay parent child k k') (own : ℕ → Owner) (f : ℕ) : KernelPage k' own child f ↔
    KernelPage k own child f := by
  obtain ⟨next, self⟩ := ended.child
  rw [KernelPage, KernelPage, self]
  exact Iff.rfl

/-- What `do_fork` does to the child, where `s` is the page that `alloc_process` mapped as its stack. -/
structure Offspring (k : Kernel σ) (parent child s : ℕ) (k' : Kernel σ) (own' : ℕ → Owner) : Prop where
  forest : Forest k' own'
  inside : HasSpace k' child
  pages : ∃ frames : List ℕ,
    k'.trace = .fork parent child :: (frames.map (fun f => .alloc (f * PGSIZE)) ++ .create child :: k.trace) ∧
    s ∈ frames ∧
    ∀ f ∈ frames, f = s ∨ KernelPage k' own' child f
  loose : ¬ KernelPage k' own' child s
  stack : has (pteOf k parent STACK_PAGE) PTE_V = false →
    has (pteOf k' child STACK_PAGE) PTE_V = true ∧ PTE2PA (pteOf k' child STACK_PAGE) = s * PGSIZE

section

variable {lay : Layout} {P : UserPages env (lay.trapSecStart / PGSIZE)} {k k₁ k₂ k' : Kernel σ}
  {own own₁ own₂ : ℕ → Owner}
  {parent child s : ℕ}

/-- The child after the loop and the assignments behind it. -/
theorem Planted.offspring (planted : Planted P k child s k₁ own₁) (inside : HasSpace k parent)
    (apart : parent ≠ child) (copies : Copies P.toPages parent child k₁ own₁ k₂ own₂)
    (ended : ForkEnded lay parent child k₂ k') :
    Offspring k parent child s k' own₂ := by
  obtain ⟨frames, trace, member, named⟩ := planted.pages
  obtain ⟨tables, traceTables, namedTables⟩ := copies.builds.pages
  have inUse : s ∈ handed k₁.trace := by
    rw [trace, handed_append]
    exact List.mem_append_left _ member
  have alive : (k₂.procs child).status ≠ .ZOMBIE := by
    rw [copies.builds.space.status, planted.status]
    decide
  refine ⟨copies.builds.forest.same ended.mem (fun f taken => ?_) fun j insideJ => ?_,
    (ended.hasSpace alive child).mpr ((copies.builds.hasSpace child).mpr planted.inside), ⟨tables ++ frames, ?_,
    List.mem_append_right _ member, fun f listed => ?_⟩, ?_, fun vacant => ?_⟩
  · rw [ended.trace]
    exact taken
  · exact ⟨(ended.hasSpace alive j).mp insideJ, by rw [rootOf, rootOf, (ended.fields j).1]⟩
  · rw [ended.trace, traceTables, trace, List.map_append, List.append_assoc]
  · rw [ended.kernelPage]
    rcases List.mem_append.mp listed with late | early
    · exact Or.inr (Or.inr (Or.inr (Or.inr (namedTables f late))))
    · exact (named f early).imp_right copies.builds.kernelPage
  · rw [ended.kernelPage]
    exact copies.builds.loose inUse planted.loose
  · rw [← planted.ptes parent apart inside] at vacant
    rw [ended.ptes, (copies.stack vacant planted.stack.1).2]
    exact planted.stack

/-- The parts of a `do_fork` over intact tables: the state `k₁` after `alloc_process` and the state
`k₂` after the loop. -/
theorem Forest.doFork_parts (forest : Forest k own) (ok : P.Ok k) (live : Live k parent)
    (call : Model.doFork env lay parent k = .ok child k') : ∃ s k₁ k₂ own₁ own₂, parent ≠ child ∧
      Model.allocProcess env lay k = .ok child k₁ ∧ Planted P k child s k₁ own₁ ∧ HasSpace k₁ parent ∧
      (List.range (k₁.procs parent).totalMappedRegion).forM (forkRegion env parent child) k₁ = .ok () k₂ ∧
      ForkEnded lay parent child k₂ k' ∧ Offspring k parent child s k' own₂ := by
  obtain ⟨k₁, k₂, spawn, loop, ended⟩ := doFork_ok call
  obtain ⟨s, own₁, planted⟩ := (forest.allocProcess ok).of_ok spawn
  have apart : parent ≠ child := by
    rintro rfl
    exact live.2 (freeProcess?_some planted.found).2
  have insideP : HasSpace k₁ parent := by
    rw [HasSpace, planted.others parent apart]
    exact live.1
  have family : Family P.toPages parent child k₁ own₁ :=
    ⟨planted.ok, planted.forest, insideP, planted.inside, apart⟩
  obtain ⟨own₂, copies⟩ := (family.rounds (fun i _ _ family => family.region i) _).of_ok loop
  exact ⟨s, k₁, k₂, own₁, own₂, apart, spawn, planted, insideP, loop, ended,
    planted.offspring live.1 apart copies ended⟩

/-- `do_fork` over intact tables. -/
theorem Forest.doFork (forest : Forest k own) (ok : P.Ok k) (live : Live k parent)
    (call : Model.doFork env lay parent k = .ok child k') : ∃ s own', Offspring k parent child s k' own' := by
  obtain ⟨s, _, _, _, own', _, _, _, _, _, _, offspring⟩ := forest.doFork_parts ok live call
  exact ⟨s, own', offspring⟩

end

/-- The step releases and writes no page table. -/
def TablesKept (k : Kernel σ) : Op → Prop
  | .store va _ _ => ¬ TablePage k (frameOf (pteOf k k.current va))
  | .trap regs _ .ecall => regs .a0 = SYS_user_free_page → regs .a1 < WORD ∧ ∀ a, regs .a1 ≤ a →
    a < regs .a1 + PGSIZE →
      has (pteOf k k.current a) PTE_V = true → ¬ TablePage k (PTE2PA (pteOf k k.current a) / PGSIZE)
  | .trap _ _ (.storePageFault stval) => has (pteOf k k.current stval) PTE_V = true →
      ¬ TablePage k (PTE2PA (pteOf k k.current stval) / PGSIZE)
  | _ => True

/-- The allocator is intact, also in the handler if the step is a trap, and page tables are left alone. -/
def Orderly (P : UserPages env trapSec) (k : Kernel σ) (op : Op) : Prop :=
  P.Ok k ∧ EntryOk P.toSupply k op ∧ TablesKept k op

theorem Saved.rootOf {k k' : Kernel σ} (saved : Saved k k')
    (pid : ℕ) : rootOf k' pid = Proofs.rootOf k pid := by
  rw [Proofs.rootOf, Proofs.rootOf, (saved.quiet.procs pid).pagetable]

theorem Saved.tablePage {k k' : Kernel σ} (saved : Saved k k') (f : ℕ) : TablePage k' f ↔ TablePage k f := by
  simp only [TablePage, saved.hasSpace, saved.rootOf, saved.mem]

section

variable {lay : Layout} {P : UserPages env (lay.trapSecStart / PGSIZE)} {k k' : Kernel σ} {own : ℕ →
  Owner} {op : Op}

/-- What is served during a trap keeps the page tables apart. -/
private theorem Forest.served (forest : Forest k own) (ok : P.Ok k) (live : Live k k.current) {regs : Regs}
    {cause : Cause} {sepc : ℕ} (kept : TablesKept k (.trap regs sepc cause))
    (served : Served env lay regs cause k k') :
    ∃ own', Forest k' own' := by
  cases served with
  | allocatePage _ call => exact (forest.sysUserAllocatePage ok live.1).of_ok call
  | freePage number call =>
    obtain ⟨word, data⟩ := kept number
    exact ⟨own, (forest.sysUserFreePage live.1 word data).of_ok call⟩
  | fork _ call =>
    obtain ⟨_, own', offspring⟩ := forest.doFork ok live call
    exact ⟨own', offspring.forest⟩
  | exit _ => exact ⟨own, forest.quiet (freeProcess_quiet k k.current)⟩
  | fault call => exact ⟨own, forest.storeFault ok live.1 kept call⟩
  | nothing => exact ⟨own, forest⟩

/-- A step of a run. -/
theorem Forest.step (forest : Forest k own) (orderly : Orderly P k op) (step : Step env lay k op k') :
    ∃ own', Forest k' own' := by
  obtain ⟨ok, entry, kept⟩ := orderly
  obtain ⟨enabled, call⟩ := step
  cases op with
  | allocProcess =>
    obtain ⟨i, mid, inner, rest⟩ := bind_eq_ok.mp call
    obtain ⟨-, rfl⟩ := EStateM.Result.ok.inj rest
    obtain ⟨_, own', planted⟩ := (forest.allocProcess ok).of_ok inner
    exact ⟨own', planted.forest⟩
  | load pid file => exact forest.load ok enabled.1 call
  | ready pid => exact ⟨own, forest.quiet (((insertToReadyQueue_queued pid k).of_ok call).quiet enabled)⟩
  | switchTo pid => exact ⟨own, forest.quiet (switchTo_started call).quiet⟩
  | trap regs sepc cause =>
    obtain ⟨k₁, k₂, before, current, tp, served, after, _, _⟩ := trap_served call
    have live : Live k₁ k₁.current := by rwa [current, before.live]
    have kept₁ : TablesKept k₁ (.trap regs sepc cause) := by
      cases cause <;> simp only [TablesKept, current, before.quiet.pteOf, before.tablePage] <;> exact kept
    obtain ⟨own', forest'⟩ := (forest.quiet before.quiet).served
      (entry k₁ before.pool before.trace tp) live kept₁ served
    exact ⟨own', forest'.quiet after.quiet⟩
  | store va index word =>
    obtain ⟨-, rfl⟩ := EStateM.Result.ok.inj call
    exact ⟨own, forest.setPage kept _⟩

/-- Without address spaces there are no page tables. -/
theorem reset_forest (procs : ∀ i < NPROC, k.procs i = { zeroProcess with pid := i }) (own : ℕ → Owner) :
    Forest k own := by
  have none : ∀ pid, ¬ HasSpace k pid := fun pid inside => inside.2.1 (by rw [procs pid inside.1]; rfl)
  exact ⟨fun pid inside => absurd inside (none pid), fun pid inside => absurd inside (none pid),
    fun pid _ inside => absurd inside (none pid)⟩

/-- In every state of an orderly run every process has a page table of its own. -/
private theorem orderly_forest {ops : List Op} (procs : ∀ i < NPROC, k.procs i = { zeroProcess with pid := i })
    (run : Run (Guarded (Orderly P) (Step env lay)) k ops k') : ∃ own, Forest k' own := by
  have keep : ∀ k op k', (∃ own, Forest k own) → Guarded (Orderly P) (Step env lay) k op k' →
    ∃ own, Forest k' own := by
    rintro k op k' ⟨own, forest⟩ ⟨orderly, step⟩
    exact forest.step orderly step
  exact run.invariant keep ⟨fun _ _ => none, reset_forest procs _⟩

end

/-- The pages that `alloc_page` handed out between two states, by the history. -/
def pagesTaken (k k' : Kernel σ) : List ℕ :=
  (k'.trace.take (k'.trace.length - k.trace.length)).filterMap fun
    | .alloc pa => some pa
    | _ => none

/-- The process refers to the page: as its trapframe, its kernel stack, its region table or a table
of its page table, or by a valid leaf entry. -/
def Referenced (k : Kernel σ) (pid pa : ℕ) : Prop :=
  pa = (k.procs pid).trapframe ∨ (pa + PGSIZE) % WORD = (k.procs pid).kstack ∨ pa = (k.procs pid).mappedInfo ∨
  IsTable k.mem (rootOf k pid) (pa / PGSIZE) ∨ ∃ va, has (pteOf k pid va) PTE_V = true ∧
  PTE2PA (pteOf k pid va) = pa

private theorem mem_pagesTaken {k k' : Kernel σ} {parent child : ℕ} {frames : List ℕ}
    (trace : k'.trace = .fork parent child ::
      (frames.map (fun f => .alloc (f * PGSIZE)) ++ .create child :: k.trace)) {pa : ℕ} :
    pa ∈ pagesTaken k k' ↔ ∃ f ∈ frames, f * PGSIZE = pa := by
  have events : k'.trace =
      (.fork parent child :: (frames.map (fun f => PageEvent.alloc (f * PGSIZE)) ++ [.create child])) ++
      k.trace := by
    rw [trace, List.cons_append, List.append_assoc]
    rfl
  rw [pagesTaken, events, List.length_append, Nat.add_sub_cancel, List.take_left']
  · simp [List.filterMap_append, List.filterMap_map]
  · rfl

section

variable {k k' : Kernel σ} {own' : ℕ → Owner} {parent child s : ℕ}

private theorem Offspring.referenced_iff (offspring : Offspring k parent child s k' own') (f : ℕ) :
    Referenced k' child (f * PGSIZE) ↔
      KernelPage k' own' child f ∨ ∃ va, has (pteOf k' child va) PTE_V = true ∧
      PTE2PA (pteOf k' child va) = f * PGSIZE := by
  have table := (offspring.forest.rooted child offspring.inside).isTable_iff f
  rw [Referenced, KernelPage, page_div, table, or_assoc, or_assoc, or_assoc]

/-- The page that was the stack of the child is the only one that can be lost. -/
theorem Offspring.kept (offspring : Offspring k parent child s k' own')
    (mapped : ∃ va, has (pteOf k' child va) PTE_V = true ∧ PTE2PA (pteOf k' child va) = s * PGSIZE) :
    ∀ pa ∈ pagesTaken k k', Referenced k' child pa := by
  obtain ⟨frames, trace, _, named⟩ := offspring.pages
  intro pa member
  obtain ⟨f, listed, rfl⟩ := (mem_pagesTaken trace).mp member
  rw [offspring.referenced_iff]
  rcases named f listed with rfl | page
  · exact Or.inr mapped
  · exact Or.inl page

theorem Offspring.lost (offspring : Offspring k parent child s k' own')
    (unmapped : ∀ va, has (pteOf k' child va) PTE_V = true → PTE2PA (pteOf k' child va) ≠ s * PGSIZE) :
    ∃ pa ∈ pagesTaken k k', ¬ Referenced k' child pa := by
  obtain ⟨frames, trace, member, _⟩ := offspring.pages
  refine ⟨s * PGSIZE, (mem_pagesTaken trace).mpr ⟨s, member, rfl⟩, ?_⟩
  rw [offspring.referenced_iff]
  rintro (page | ⟨va, valid, same⟩)
  · exact offspring.loose page
  · exact unmapped va valid same

end

section

variable {lay : Layout} {P : UserPages env (lay.trapSecStart / PGSIZE)} {k₀ k k₁ k' : Kernel σ}
  {parent child : ℕ}

/-- If the parent does not map its stack page, every page that `do_fork` takes is referenced by the
child when it returns, in every state of an orderly run and also in a system call, after the
registers were saved. -/
theorem fork_keeps_frames {ops : List Op} (reset : ∀ i < NPROC, k₀.procs i = { zeroProcess with pid := i })
    (run : Run (Guarded (Orderly P) (Step env lay)) k₀ ops k) (saved : Saved k k₁) (ok : P.Ok k₁)
    (live : Live k parent) (vacant : has (pteOf k parent STACK_PAGE) PTE_V = false)
    (call : doFork env lay parent k₁ = .ok child k') :
    ∀ pa ∈ pagesTaken k k', Referenced k' child pa := by
  obtain ⟨own, forest⟩ := orderly_forest reset run
  obtain ⟨s, own', offspring⟩ := (forest.quiet saved.quiet).doFork ok ((saved.live parent).mpr live) call
  rw [← saved.quiet.pteOf] at vacant
  have kept := offspring.kept ⟨STACK_PAGE, offspring.stack vacant⟩
  simp only [pagesTaken, saved.trace] at kept ⊢
  exact kept

end

theorem Quiet.tablePage {k k' : Kernel σ} (quiet : Quiet k k') {f : ℕ} (table : TablePage k' f) :
    TablePage k f := by
  obtain ⟨pid, inside, table⟩ := table
  rw [rootOf, quiet.mem, (quiet.procs pid).pagetable] at table
  exact ⟨pid, quiet.hasSpace inside, table⟩

/-- The stack page of the only process is no table. -/
private theorem Planted.stack_data {lay : Layout} {P : UserPages env (lay.trapSecStart / PGSIZE)}
    {k k' : Kernel σ} {own' : ℕ → Owner} {i s : ℕ} (planted : Planted P k i s k' own')
    (alone : ∀ j, ¬ HasSpace k j) :
    ¬ TablePage k' (PTE2PA (pteOf k' i STACK_PAGE) / PGSIZE) := by
  rw [planted.stack.2, page_div, planted.forest.tablePage_iff]
  rintro ⟨j, inside, named⟩
  by_cases here : j = i
  · rw [here] at named
    exact planted.loose (Or.inr (Or.inr (Or.inr named)))
  · rw [HasSpace, planted.others j here] at inside
    exact alone j inside

/-- The pages of the small machine, which `alloc_page` hands out in order. -/
def smallPages : UserPages (firstFitEnv smallFrames) (smallLayout.trapSecStart / PGSIZE) where
  toPages := (firstFitFrames smallFrames _ (by decide) List.nodup_range' (by decide)).toPages
  image _ call := by
    have apart : ∀ f ∈ smallFrames, f ≠ smallLayout.trapSecStart / PGSIZE := by decide
    exact apart _ (firstFitEnv_within call)

/-- A process is started on the small machine and releases its stack page. -/
def stackReleased : List Op := smallStart ++ [.trap (request SYS_user_free_page STACK_PAGE) 0 .ecall]

private theorem stackReleased_orderly {k : Kernel Unit}
    (run : Run (Step (firstFitEnv smallFrames) smallLayout) firstFitKernel stackReleased k) :
    Run (Guarded (Orderly smallPages) (Step (firstFitEnv smallFrames) smallLayout)) firstFitKernel
    stackReleased k := by
  have orderly : ∀ k op, TablesKept k op → Orderly smallPages k op := fun k op kept => by
    refine ⟨trivial, ?_, kept⟩
    cases op <;> first | trivial | exact fun _ _ _ _ => trivial
  cases run with | cons spawn rest =>
  cases rest with | cons ready rest =>
  cases rest with | cons start rest =>
  cases rest with | cons release rest =>
  rename_i k₁ k₂ k₃ k₄
  have alone : ∀ j, ¬ HasSpace firstFitKernel j := fun _ inside => inside.2.1 rfl
  have forest : Forest firstFitKernel fun _ _ => none := reset_forest (fun _ _ => rfl) _
  obtain ⟨i, _, inner, outcome⟩ := bind_eq_ok.mp spawn.2
  obtain ⟨-, rfl⟩ := EStateM.Result.ok.inj outcome
  obtain ⟨s, own', planted⟩ := (forest.allocProcess (P := smallPages) trivial).of_ok inner
  obtain rfl : 0 = i := Option.some.inj
    ((by decide : freeProcess? firstFitKernel.procs = some 0).symm.trans planted.found)
  have started := switchTo_started start.2
  have queued := ((insertToReadyQueue_queued 0 _).of_ok ready.2).quiet ready.1
  refine .cons ⟨orderly _ _ trivial, spawn⟩
    (.cons ⟨orderly _ _ trivial, ready⟩ (.cons ⟨orderly _ _ trivial, start⟩
    (.cons ⟨orderly _ _ fun _ => ⟨by decide, fun a low high _ table => ?_⟩, release⟩ ?_)))
  · have page : pageOf a = pageOf STACK_PAGE := by
      change STACK_PAGE ≤ a at low
      change a < STACK_PAGE + PGSIZE at high
      simp only [pageOf, STACK_PAGE, USER_STACK_TOP, PGSIZE] at *
      omega
    rw [started.current, pteOf_congr page, started.quiet.pteOf, queued.pteOf] at table
    exact planted.stack_data alone (queued.tablePage (started.quiet.tablePage table))
  · cases rest with | nil => exact .nil _

theorem fork_keeps_frames_small : ∃ k child k',
    Run (Guarded (Orderly smallPages) (Step (firstFitEnv smallFrames) smallLayout)) firstFitKernel
    stackReleased k ∧
    Live k k.current ∧ has (pteOf k k.current STACK_PAGE) PTE_V = false ∧
    doFork (firstFitEnv smallFrames) smallLayout k.current (k.entered (request SYS_user_fork 0) 0) =
    .ok child k' ∧
    ∀ pa ∈ pagesTaken k k', Referenced k' child pa := by
  have checked : (execute (firstFitEnv smallFrames) smallLayout stackReleased firstFitKernel).any (fun k =>
      decide (Live k k.current ∧ has (pteOf k k.current STACK_PAGE) PTE_V = false) && returned (fun _ _ => true)
      (doFork (firstFitEnv smallFrames) smallLayout k.current (k.entered (request SYS_user_fork 0) 0))) =
      true := by decide +kernel
  obtain ⟨k, run, check⟩ := run_of_check checked
  obtain ⟨ready, ok⟩ := Bool.and_eq_true_iff.mp check
  obtain ⟨live, vacant⟩ := of_decide_eq_true ready
  obtain ⟨child, k', call, _⟩ := returned_eq_true ok
  have orderly := stackReleased_orderly run
  exact ⟨k, child, k', orderly, live, vacant, call,
    fork_keeps_frames (fun _ _ => rfl) orderly (entered_saved k _ 0) trivial live vacant call⟩

/-- The tables below a root are named by every owner function of intact tables. -/
theorem Shape.tablePage {k : Kernel σ} {own : Owner} (shape : Shape trapSec k own) {f : ℕ}
    (table : TablePage k f) : own f ≠ none := by
  obtain ⟨pid, inside, p, short, reached⟩ := table
  rw [shape.tables.follow_owner (shape.roots pid inside) short reached]
  exact Option.some_ne_none _

/-- Over intact address spaces no step releases or writes a page table. -/
private theorem Good.tablesKept {S : Supply env trapSec} {k : Kernel σ} {own : Owner} {op : Op}
    (good : Good S k own) (enabled : Enabled k op) (safe : Safe k op) : TablesKept k op := by
  have data : ∀ pid va, HasSpace k pid → has (pteOf k pid va) PTE_V = true →
      ¬ TablePage k (PTE2PA (pteOf k pid va) / PGSIZE) ∧ ¬ TablePage k (frameOf (pteOf k pid va)) := by
    intro pid va inside valid
    obtain ⟨free, small⟩ := good.space.leaves pid inside va valid
    rw [PTE2PA_page small]
    exact ⟨fun table => good.space.tablePage table free, fun table => good.space.tablePage table free⟩
  cases op with
  | store va index word => exact (data k.current va enabled.1.1 enabled.2.1.1).2
  | trap regs sepc cause =>
    cases cause with
    | ecall =>
      intro number
      have high := (safe number).high
      have top := (good.procs _ enabled.1).top.2.2
      refine ⟨?_, fun a _ _ valid => (data k.current a enabled.1 valid).1⟩
      simp only [STACK_PAGE, USER_STACK_TOP, PGSIZE, WORD] at *
      omega
    | storePageFault stval => exact fun valid => (data k.current stval enabled.1 valid).1
    | _ => trivial
  | _ => trivial

/-- Over intact address spaces `do_fork` loses the page that `alloc_process` mapped as the stack of
the child. -/
private theorem Good.fork_leaks {lay : Layout} {P : UserPages env (lay.trapSecStart / PGSIZE)}
    {k k' : Kernel σ} {own : Owner} {tables : ℕ → Owner} {parent child : ℕ} (good : Good P.toSupply k own)
    (forest : Forest k tables) (live : Live k parent) (call : Model.doFork env lay parent k = .ok child k') :
    ∃ pa ∈ pagesTaken k k', ¬ Referenced k' child pa := by
  obtain ⟨s, k₁, k₂, _, _, apart, spawn, planted, insideP, loop, ended, offspring⟩ :=
    forest.doFork_parts good.space.ok live call
  obtain ⟨own₁, spawned⟩ := good.space.allocProcess.of_ok spawn
  have parentPtes : pteOf k₁ parent = pteOf k parent := funext (planted.ptes parent apart live.1)
  have ok : ProcOk (k₁.procs parent) (pteOf k₁ parent) := by
    rw [planted.others parent apart, parentPtes]
    exact good.procs parent live.1
  have forks := Forking.forkRegions ok spawned.only.space insideP spawned.inside apart
    spawned.fields.total le_rfl
  obtain ⟨_, forking, _⟩ := forks.of_ok loop
  obtain ⟨n, total⟩ := Nat.exists_eq_add_of_le ok.total.1
  rw [total, Nat.add_sub_cancel_left, sharedPages_loaded] at forking
  -- the page of the stack of the child is new, so the parent does not map it
  have foreign : ∀ va pte, has (pteOf k₁ parent va) PTE_V = true → frameOf pte = frameOf (pteOf k₁ parent va) →
      PTE2PA pte ≠ s * PGSIZE := by
    obtain ⟨f, leaves, new⟩ := spawned.leaves
    have frame : frameOf (pteOf k₁ child STACK_PAGE) = f := by
      rw [leaves.stack]
      exact frameOf_flags (by decide)
    have small := (spawned.only.space.leaves child spawned.inside STACK_PAGE planted.stack.1).2
    have page : f * PGSIZE = s * PGSIZE := by rw [← planted.stack.2, PTE2PA_eq small, frame]
    intro va pte valid copy same
    rw [parentPtes] at valid copy
    rw [PTE2PA_eq (copy ▸ (good.space.leaves parent live.1 va valid).2), copy, ← page] at same
    exact new parent apart live.1 va valid (Nat.eq_of_mul_eq_mul_right (by decide) same)
  refine offspring.lost fun va valid => ?_
  rw [ended.ptes, forking.childPtes, childEntry] at valid ⊢
  split_ifs at valid ⊢ with code cow
  · obtain ⟨region, member, page⟩ := mem_codePages.mp code
    obtain ⟨i, low, high, rfl, _⟩ := mem_codeRegions.mp member
    refine foreign va _ ?_ (frameOf_codeEntry _)
    rw [pteOf_congr page]
    exact (ok.loaded i low (by omega)).leaf.1
  · exact foreign va _ cow.2 (frameOf_shared _)
  · refine (planted.entries va valid).resolve_left fun page => cow ⟨mem_cowPages.mpr (Or.inr page), ?_⟩
    rw [pteOf_congr page]
    exact ok.stack.1

section

variable {lay : Layout} {k₀ k k' : Kernel Pool} {ops : List Op}

/-- Careful runs keep the page tables of all processes apart. -/
private theorem careful_forest (boot : BootState lay k₀)
    (run : Run (Guarded (Careful lay) (Step pmmEnv lay)) k₀ ops k) :
    ∃ own tables, Sane (lay.trapSecStart / PGSIZE) k own ∧ Forest k tables := by
  have keep : ∀ k op k', (∃ own tables, Sane (lay.trapSecStart / PGSIZE) k own ∧ Forest k tables) →
      Guarded (Careful lay) (Step pmmEnv lay) k op k' →
      ∃ own tables, Sane (lay.trapSecStart / PGSIZE) k' own ∧ Forest k' tables := by
    rintro k op k' ⟨own, tables, sane, forest⟩ ⟨⟨sound, safe, hart⟩, step⟩
    have good := sound.good sane
    have entry := sound.pool.entry hart
    have orderly : Orderly (pmmUserPages lay) k op := ⟨sound.pool, entry, good.tablesKept step.1 safe⟩
    obtain ⟨own', sane'⟩ := (good.outcome step safe entry).sane
    obtain ⟨tables', forest'⟩ := forest.step orderly step
    exact ⟨own', tables', sane', forest'⟩
  exact run.invariant keep ⟨_, fun _ _ => none, boot.good.sane, reset_forest boot.procs _⟩

/-- In every careful run every `do_fork` of a system call loses a page. -/
private theorem careful_fork_leaks (boot : BootState lay k₀)
    (run : Run (Guarded (Careful lay) (Step pmmEnv lay)) k₀ ops k)
    (live : Live k k.current) {regs : Regs} {sepc child : ℕ} (careful : Careful lay k (.trap regs sepc .ecall))
    (call : Model.doFork pmmEnv lay k.current (k.entered regs sepc) = .ok child k') :
    ∃ pa ∈ pagesTaken k k', ¬ Referenced k' child pa := by
  obtain ⟨own, tables, sane, forest⟩ := careful_forest boot run
  obtain ⟨sound, _, hart⟩ := careful
  have saved := entered_saved k regs sepc
  have ok := sound.pool.entry hart (k.entered regs sepc) rfl rfl rfl
  have good : Good (pmmSupply lay) (k.entered regs sepc) own := saved.quiet.good (sound.good sane) ok
  exact good.fork_leaks (P := pmmUserPages lay) (forest.quiet saved.quiet) ((saved.live _).mpr live) call

end

/-- The process that was just started forks: a page that was handed out is not referenced by the child. -/
theorem fork_leaks_small : ∃ k child k', BootState smallLayout smallKernel ∧
    Run (Step pmmEnv smallLayout) smallKernel smallStart k ∧ Live k k.current ∧
    Model.doFork pmmEnv smallLayout k.current (k.entered (request SYS_user_fork 0) 0) = .ok child k' ∧
    ¬ ∀ pa ∈ pagesTaken k k', Referenced k' child pa := by
  have checked : (execute pmmEnv smallLayout smallStart smallKernel).any (fun k => decide (Live k k.current) &&
      returned (fun _ _ => true) (Model.doFork pmmEnv smallLayout k.current
        (k.entered (request SYS_user_fork 0) 0))) = true := by
    decide +kernel
  obtain ⟨k, run, check⟩ := run_of_check checked
  obtain ⟨live, ok⟩ := Bool.and_eq_true_iff.mp check
  obtain ⟨child, k', call, _⟩ := returned_eq_true ok
  obtain ⟨careful, own, good⟩ := calm_careful run (by decide) smallKernel_boot.good
  have here : Careful smallLayout k (.trap (request SYS_user_fork 0) 0 .ecall) :=
    ⟨good.sound, fun number => absurd number (by decide), Nat.one_pos⟩
  obtain ⟨pa, member, lost⟩ := careful_fork_leaks smallKernel_boot careful (of_decide_eq_true live) here call
  exact ⟨k, child, k', smallKernel_boot, run, of_decide_eq_true live, call, fun all => lost (all pa member)⟩

end Pke.Proofs
