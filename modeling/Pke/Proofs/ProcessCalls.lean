import Pke.Proofs.ProcessInvariant

/-! # The calls that work on one process

One rule for each call: loading an application, the heap system calls, a store fault, and the changes of
process structures. Each keeps `Good` where it only takes pages. A call that releases pages keeps
`Shape` and the invariant of the processes; whether the allocator is still intact depends on the page.
-/

namespace Pke.Proofs

open Pke.Lib Pke.Model

variable {σ : Type} {env : PageEnv σ} {trapSec : ℕ} {S : Supply env trapSec}

section

variable {k : Kernel σ} {own : Owner}

/-- A process that can make system calls. -/
def Live (k : Kernel σ) (pid : ℕ) : Prop := HasSpace k pid ∧ (k.procs pid).status ≠ .FREE

theorem decr32_succ {n : ℕ} (small : n < 2 ^ 31) : decr32 (n + 1) = n := by
  rw [decr32, show n + 1 + (2 ^ 32 - 1) = n + 2 ^ 32 by omega, Nat.add_mod_right]
  exact Nat.mod_eq_of_lt (by omega)

/-- The end of `sys_user_allocate_page`: the new page is mapped at the chosen address. -/
private theorem mapGranted (space : Space S k own) {pid va f perm : ℕ} (inside : HasSpace k pid)
    (aligned : va % PGSIZE = 0) (word : va < WORD) (flags : perm < 2 ^ 10) (held : Held S k own f) :
    Yields (do
      userVmMap env ((← get).procs pid).pagetable va PGSIZE (f * PGSIZE) perm
      modify fun k => k.record (.grant pid va)
      return va) k fun _ k' => has (pteOf k pid va) PTE_V = false ∧ ∃ own', Only S (· = pid) k own k' own' ∧
        k'.procs = k.procs ∧
        ∀ va', pteOf k' pid va' = if pageOf va' = pageOf va then f * 2 ^ 10 ||| perm ||| PTE_V
        else pteOf k pid va' := by
  refine Ensures.step (get_apply k) ?_
  refine Ensures.bind (space.mapInto inside aligned word flags held.mappable) ?_
  rintro _ k₁ ⟨_, _, unmapped, own₁, only₁, procs₁, ptes₁⟩
  refine Ensures.step (modify_apply _ _) ?_
  exact ⟨unmapped, own₁, only₁.trans (only₁.space.onlyRecord trivial), procs₁, ptes₁⟩

/-- `sys_user_allocate_page`; the page that it maps is mapped once. -/
theorem Good.sysUserAllocatePage (good : Good S k own) (live : Live k k.current) :
    Yields (sysUserAllocatePage env) k fun _ k' => ∃ own', Good S k' own' ∧ (Exclusive k → Exclusive k') ∧
      ∀ a, has (pteOf k k.current a) PTE_V = false → has (pteOf k' k.current a) PTE_V = true →
        MappedOnce trapSec k' k.current a := by
  obtain ⟨inside, status⟩ := live
  have ok := good.procs _ inside
  have congr : ∀ va a, pageOf a = pageOf va → pteOf k k.current a = pteOf k k.current va :=
    fun _ _ page => pteOf_congr page
  rw [Model.sysUserAllocatePage]
  refine Ensures.bind (good.space.takePage (· = k.current)) ?_
  rintro _ k₁ ⟨f, rfl, _, _, image, unmapped, held₁, only₁, procs₁, ptes₁⟩
  refine Ensures.step (get_apply k₁) ?_
  refine Ensures.step (get_apply k₁) ?_
  rw [only₁.current, procs₁]
  have inside₁ : HasSpace k₁ k.current := by rwa [HasSpace, procs₁]
  -- both branches change fields of the caller and then map the page at the address they chose
  have finish : ∀ k₂ own₂ va, Only S (· = k.current) k₁ own k₂ own₂ → HasSpace k₂ k.current →
      (∀ va', pteOf k₂ k.current va' = pteOf k k.current va') → va % PGSIZE = 0 → va < WORD →
      (∀ pte', has (pteOf k k.current va) PTE_V = false →
        (∀ va', pte' va' = if pageOf va' = pageOf va
          then f * 2 ^ 10 ||| protToType true true false true ||| PTE_V
          else pteOf k k.current va') → ProcOk (k₂.procs k.current) pte') →
      Yields (do
        userVmMap env ((← get).procs k.current).pagetable va PGSIZE (f * PGSIZE) (protToType true true false true)
        modify fun k' => k'.record (.grant k.current va)
        return va) k₂ fun _ k' => ∃ own', Good S k' own' ∧ (Exclusive k → Exclusive k') ∧
          ∀ a, has (pteOf k k.current a) PTE_V = false → has (pteOf k' k.current a) PTE_V = true →
            MappedOnce trapSec k' k.current a := by
    intro k₂ own₂ va only₂ inside₂ ptes₂ aligned word proc
    refine Ensures.mono (mapGranted only₂.space inside₂ aligned word (by decide) (only₂.held f held₁)) ?_
    rintro _ k' ⟨vacant, own', only₃, procs₃, ptes₃⟩
    have only := only₁.trans (only₂.trans only₃)
    simp only [ptes₂] at ptes₃ vacant
    refine ⟨own', ⟨only.space, only.procsOk good.procs ?_⟩,
      only.exclusive_map (by decide) unmapped inside ptes₃,
      fun a before after => only.mapped_once (by decide) unmapped image inside ptes₃ ?_⟩
    · rintro _ rfl _
      rw [procs₃]
      exact proc _ vacant ptes₃
    · by_contra other
      rw [ptes₃, if_neg other, before] at after
      exact absurd after (by decide)
  by_cases some : (k.procs k.current).userHeap.freePagesCount > 0
  · obtain ⟨n, count⟩ := Nat.exists_eq_succ_of_ne_zero some.ne'
    have bound := ok.heap.count
    rw [count] at bound
    have index : decr32 (k.procs k.current).userHeap.freePagesCount = n := by
      rw [count]
      exact decr32_succ (by simp only [MAX_HEAP_PAGES] at bound; omega)
    have range := ok.heap.range n (by omega)
    have aligned := ok.heap.aligned n (by omega)
    rw [if_pos some, index]
    refine only₁.space.stepProc (fun _ => ⟨rfl, rfl⟩) fun k₂ only₂ inside₂ proc₂ ptes₂ => ?_
    rw [procs₁] at proc₂
    have check : assert (decide ((k.procs k.current).userHeap.freePagesAddress n <
        (k.procs k.current).userHeap.heapTop))
        "va < current->user_heap.heap_top" k₂ = .ok () k₂ := by simp [assert, range.2]
    refine Ensures.step check ?_
    refine Ensures.step (pure_apply _ k₂) ?_
    refine finish k₂ own _ only₂ (inside₂ inside₁) (fun va' => by rw [ptes₂, ptes₁]) aligned
      ((ok.heap_below range.2).trans (by decide)) fun pte' vacant ptes => ?_
    refine ok.pop count rfl ?_ ?_ ?_ ?_ vacant ptes (congr _)
    · rw [proc₂]
    · rw [proc₂]
    · rw [proc₂]
      simp only [index]
    · rw [proc₂]
      exact status
  · have none : (k.procs k.current).userHeap.freePagesCount = 0 := Nat.eq_zero_of_not_pos some
    rw [if_neg some]
    refine only₁.space.stepProc (fun _ => ⟨rfl, rfl⟩) fun k₂ only₂ inside₂ proc₂ ptes₂ => ?_
    refine only₂.space.stepProc (fun _ => ⟨rfl, rfl⟩) fun k₃ only₃ inside₃ proc₃ ptes₃ => ?_
    refine Ensures.step (pure_apply _ k₃) ?_
    rw [procs₁] at proc₂
    refine finish k₃ own _ (only₂.trans only₃) (inside₃ (inside₂ inside₁))
      (fun va' => by rw [ptes₃, ptes₂, ptes₁]) ok.top.1
      (ok.top.2.2.trans_lt (by decide)) fun pte' vacant ptes => ?_
    refine ok.grow rfl none ?_ ?_ ?_ ?_ vacant ptes (congr _)
    · rw [proc₃, proc₂]
      rfl
    · rw [proc₃, proc₂]
      rfl
    · rw [proc₃, proc₂]
      rfl
    · rw [proc₃, proc₂]
      exact status

end

section

variable {k : Kernel σ} {own : Owner} {pid : ℕ}

/-- `elf_alloc_mb` maps a fresh page. -/
theorem Good.elfAllocMb (good : Good S k own) (inside : HasSpace k pid) {va size : ℕ}
    (aligned : va % PGSIZE = 0) (word : va < WORD) :
    Yields (elfAllocMb env pid va size) k fun pa k' => ∃ f own', pa = f * PGSIZE ∧ 0 < va ∧ va < MAXVA ∧
    own' f = none ∧
      has (pteOf k pid va) PTE_V = false ∧ ¬ Mapped k f ∧ Only S (· = pid) k own k' own' ∧ k'.procs = k.procs ∧
      ∀ va', pteOf k' pid va' = if pageOf va' = pageOf va
      then f * 2 ^ 10 ||| protToType true true true true ||| PTE_V
        else pteOf k pid va' := by
  rw [Model.elfAllocMb]
  by_cases fits : size < PGSIZE
  · have check : kassert (decide (size < PGSIZE)) "size < PGSIZE" k = .ok () k := by simp [kassert, fits]
    refine Ensures.step check ?_
    refine Ensures.bind (good.space.takePage (· = pid)) ?_
    rintro _ k₁ ⟨f, rfl, ram, _, _, unmapped, held₁, only₁, procs₁, ptes₁⟩
    rw [if_neg (ram_ne_zero ram), Nat.mul_div_cancel f (show 0 < PGSIZE by decide)]
    refine Ensures.step (modify_apply _ _) ?_
    have only₂ : Only S (· = pid) k₁ own (k₁.setPage f fun _ => 0) own := only₁.space.onlySetPage held₁.free _
    have inside₂ : HasSpace (k₁.setPage f fun _ => 0) pid := by
      rw [HasSpace]
      change pid < NPROC ∧ (k₁.procs pid).pagetable ≠ 0 ∧ (k₁.procs pid).status ≠ .ZOMBIE
      rwa [procs₁]
    refine Ensures.step (get_apply _) ?_
    refine Ensures.bind (only₂.space.mapInto inside₂ aligned word (by decide) (only₂.held f held₁).mappable) ?_
    rintro _ k₃ ⟨low, high, vacant, own₃, only₃, procs₃, ptes₃⟩
    have ptes₂ : ∀ va', pteOf (k₁.setPage f fun _ => 0) pid va' = pteOf k pid va' := fun va' => by
      have inside₁ : HasSpace k₁ pid := by rwa [HasSpace, procs₁]
      rw [only₁.space.dataPte held₁.free _ inside₁, ptes₁]
    simp only [ptes₂] at ptes₃ vacant
    exact ⟨f, own₃, rfl, low, high, (only₃.held f (only₂.held f held₁)).free, vacant, unmapped,
      only₁.trans (only₂.trans only₃), procs₃.trans procs₁, ptes₃⟩
  · have check : kassert (decide (size < PGSIZE)) "size < PGSIZE" k =
      .error (.kassertFailed "size < PGSIZE") k := by
      simp [kassert, fits]
    exact Ensures.fails check trivial

/-- What loading keeps: the process has still not run, and its region table grew by at most `n`. -/
structure Loading (S : Supply env trapSec) (k : Kernel σ) (pid n : ℕ) (k' : Kernel σ) : Prop where
  good : ∃ own', Good S k' own'
  exclusive : Exclusive k → Exclusive k'
  inside : HasSpace k' pid
  fresh : (k'.procs pid).status = .FREE
  total : (k'.procs pid).totalMappedRegion ≤ (k.procs pid).totalMappedRegion + n

private theorem segmentOf_cases {flags : ℕ} {type : SegmentType} (found : segmentOf flags = some type) :
    type = .CODE_SEGMENT ∨ type = .DATA_SEGMENT := by
  rw [segmentOf] at found
  split_ifs at found
  · exact Or.inl (Option.some.inj found).symm
  · exact Or.inr (Option.some.inj found).symm

/-- One loadable segment. -/
theorem Good.loadSegment (good : Good S k own) (inside : HasSpace k pid) (fresh : (k.procs pid).status = .FREE)
    (room : (k.procs pid).totalMappedRegion < REGION_SLOTS) (file : HostFile) {ph : ProgHeader}
    (aligned : ph.vaddr % PGSIZE = 0) (word : ph.vaddr < WORD) :
    Yields (loadSegment env pid file ph) k fun status k' => status ≠ some .EL_OK ∧
      (status = none → Loading S k pid 1 k') := by
  have ok := good.procs pid inside
  rw [Model.loadSegment]
  by_cases large : ph.memsz < ph.filesz
  · rw [if_pos large]
    exact ⟨by simp, by simp⟩
  rw [if_neg large]
  by_cases wraps : (ph.vaddr + ph.memsz) % WORD < ph.vaddr
  · rw [if_pos wraps]
    exact ⟨by simp, by simp⟩
  rw [if_neg wraps]
  refine Ensures.bind (good.elfAllocMb inside aligned word) ?_
  rintro _ k₁ ⟨f, own₁, rfl, low, high, free, vacant, unmapped, only₁, procs₁, ptes₁⟩
  rw [Nat.mul_div_cancel f (show 0 < PGSIZE by decide)]
  refine Ensures.step (modify_apply _ _) ?_
  by_cases short : file.pread ph.memsz ph.off ≠ ph.memsz
  · rw [if_pos short]
    exact ⟨by simp, by simp⟩
  rw [if_neg short]
  have only₂ : Only S (· = pid) k₁ own₁ (k₁.setPage f _) own₁ := only₁.space.onlySetPage free
    (storedWord (k₁.mem f) (file.pread ph.memsz ph.off) fun n => (file.byte (ph.off + n)).toNat)
  have ptes₂ := only₁.space.dataPte free
    (storedWord (k₁.mem f) (file.pread ph.memsz ph.off) fun n => (file.byte (ph.off + n)).toNat)
    (show HasSpace k₁ pid by rwa [HasSpace, procs₁])
  have procs₂ : (k₁.setPage f (storedWord (k₁.mem f) (file.pread ph.memsz ph.off) fun n =>
    (file.byte (ph.off + n)).toNat)).procs = k.procs := procs₁
  have inside₂ : HasSpace (k₁.setPage f (storedWord (k₁.mem f) (file.pread ph.memsz ph.off) fun n =>
    (file.byte (ph.off + n)).toNat)) pid := by rwa [HasSpace, procs₂]
  generalize k₁.setPage f (storedWord (k₁.mem f) (file.pread ph.memsz ph.off) fun n =>
    (file.byte (ph.off + n)).toNat) = k₂ at *
  refine Ensures.step (get_apply k₂) ?_
  rw [procs₂, ok.freeRegion room]
  refine only₂.space.stepProc (fun _ => ⟨rfl, rfl⟩) fun k₃ only₃ inside₃ proc₃ ptes₃ => ?_
  cases found : segmentOf ph.flags with
  | none => trivial
  | some type =>
    refine only₃.space.stepProc (fun _ => ⟨rfl, rfl⟩) fun k₄ only₄ inside₄ proc₄ ptes₄ => ?_
    have only := only₁.trans (only₂.trans (only₃.trans only₄))
    have ptes : ∀ va', pteOf k₄ pid va' = if pageOf va' = pageOf ph.vaddr then
        f * 2 ^ 10 ||| protToType true true true true ||| PTE_V else pteOf k pid va' :=
      fun va' => by rw [ptes₄, ptes₃, ptes₂, ptes₁]
    have total : (k₄.procs pid).totalMappedRegion = (k.procs pid).totalMappedRegion + 1 := by
      rw [proc₄, proc₃, procs₂]
    have status : (k₄.procs pid).status = .FREE := by
      rw [proc₄, proc₃, procs₂]
      exact fresh
    refine ⟨by simp, fun _ => ⟨⟨own₁, only.space, only.procsOk good.procs ?_⟩,
      only.exclusive_map (by decide) unmapped inside ptes,
      inside₄ (inside₃ inside₂), status, total.le⟩⟩
    rintro _ rfl _
    refine ok.load fresh room (segmentOf_cases found) aligned low high ?_ ?_ total ?_ vacant ptes fun _
      page => pteOf_congr page
    · rw [UserLeaf, show PTE_V = 2 ^ 0 from rfl, show PTE_U = 2 ^ 4 from rfl, show PTE_R = 2 ^ 1 from rfl]
      refine ⟨⟨?_, ?_⟩, ?_⟩
      · exact (has_leaf (by decide) _ _).trans (by decide)
      · exact (has_leaf (by decide) _ _).trans (by decide)
      · exact (has_leaf (by decide) _ _).trans (by decide)
    · rw [proc₄, proc₃, procs₂]
      simp only [Function.update_self, Function.update_idem]
    · rw [proc₄, proc₃, procs₂]

/-- The loadable segments of a file start on page boundaries. -/
def AlignedSegments (file : HostFile) (ehdr : ElfHeader) : Prop :=
  ∀ i < ehdr.phnum, (file.progHeader (throughInt (ehdr.phoff + PROG_HEADER_SIZE * i))).type = ELF_PROG_LOAD →
    (file.progHeader (throughInt (ehdr.phoff + PROG_HEADER_SIZE * i))).vaddr % PGSIZE = 0

/-- The loop of `elf_load`. -/
theorem Loading.elfLoadLoop {k₀ : Kernel σ} {file : HostFile} {ehdr : ElfHeader}
    (aligned : AlignedSegments file ehdr) (room : (k₀.procs pid).totalMappedRegion + ehdr.phnum ≤
      REGION_SLOTS) (n i : ℕ) (rest : i + n = ehdr.phnum)
    {k : Kernel σ} (loading : Loading S k₀ pid i k) :
    Yields (elfLoadLoop env pid file ehdr n i) k fun status k' => status = .EL_OK →
    Loading S k₀ pid ehdr.phnum k' := by
  induction n generalizing i k with
  | zero =>
    obtain rfl : i = ehdr.phnum := by omega
    exact fun _ => loading
  | succ n ih =>
    obtain ⟨own, good⟩ := loading.good
    rw [Model.elfLoadLoop]
    by_cases short : file.pread PROG_HEADER_SIZE (throughInt (ehdr.phoff + PROG_HEADER_SIZE * i)) ≠
      PROG_HEADER_SIZE
    · rw [if_pos short]
      exact fun ok => absurd ok (by decide)
    rw [if_neg short]
    by_cases skip : (file.progHeader (throughInt (ehdr.phoff + PROG_HEADER_SIZE * i))).type ≠ ELF_PROG_LOAD
    · rw [if_pos skip]
      exact ih (i + 1) (by omega) { loading with total := loading.total.trans (by omega) }
    rw [if_neg skip]
    have slots : (k.procs pid).totalMappedRegion < REGION_SLOTS := by
      have total := loading.total
      omega
    have boundary := aligned i (by omega) (not_not.mp skip)
    have word := vaddr_word file (throughInt (ehdr.phoff + PROG_HEADER_SIZE * i))
    generalize file.progHeader (throughInt (ehdr.phoff + PROG_HEADER_SIZE * i)) = ph at *
    refine Ensures.bind (good.loadSegment loading.inside loading.fresh slots file boundary word) ?_
    rintro status k' ⟨failed, next⟩
    cases status with
    | some status => exact fun ok => absurd (congrArg some ok) failed
    | none =>
      have step : Loading S k pid 1 k' := next rfl
      exact ih (i + 1) (by omega) ⟨step.good, fun old => step.exclusive (loading.exclusive old),
        step.inside, step.fresh, step.total.trans (Nat.add_le_add_right loading.total 1)⟩

/-- `load_bincode_from_host_elf` into a process that has not run. -/
theorem Good.load (good : Good S k own) (inside : HasSpace k pid) (fresh : (k.procs pid).status = .FREE)
    {file : HostFile}
    (accepted : ∀ ehdr, elfInit file = .ok ehdr → AlignedSegments file ehdr ∧
      (k.procs pid).totalMappedRegion + ehdr.phnum ≤ REGION_SLOTS) :
    Yields (loadBincodeFromHostElf env pid file) k fun _ k' => ∃ own', Good S k' own' ∧
      (Exclusive k → Exclusive k') := by
  rw [loadBincodeFromHostElf]
  cases init : elfInit file with
  | error status => trivial
  | ok ehdr =>
    obtain ⟨aligned, room⟩ := accepted ehdr init
    have start : Loading S k pid 0 k := ⟨⟨own, good⟩, id, inside, fresh, le_rfl⟩
    refine Ensures.bind (start.elfLoadLoop aligned room ehdr.phnum 0 (Nat.zero_add _)) ?_
    intro status k' done
    by_cases failed : status ≠ .EL_OK
    · rw [if_pos failed]
      trivial
    rw [if_neg failed]
    obtain ⟨⟨own', good'⟩, exclusive, inside', fresh', _⟩ := done (not_not.mp failed)
    have harmless : Harmless (k'.procs pid)
      { k'.procs pid with frame := { (k'.procs pid).frame with epc := ehdr.entry } } :=
      ⟨rfl, id, id, rfl, rfl, rfl⟩
    exact ⟨own', good'.setProc harmless, fun old => (exclusive old).setProc harmless⟩

end

/-- Process structures and page tables without a promise about the allocator. -/
structure Sane (trapSec : ℕ) (k : Kernel σ) (own : Owner) : Prop where
  shape : Shape trapSec k own
  procs : Procs k

theorem Good.sane {k : Kernel σ} {own : Owner} (good : Good S k own) :
    Sane trapSec k own := ⟨good.space.toShape, good.procs⟩

/-- Passing a page that is no table to `pfree`. -/
theorem Shape.gave {k : Kernel σ} {own : Owner} (shape : Shape trapSec k own) {pa : ℕ}
    (free : own (pa / PGSIZE) = none) (pool : σ) : Shape trapSec (k.gave pa pool) own := by
  refine ⟨shape.tables, shape.image, fun f named => ?_, shape.roots, shape.distinct, shape.leaves⟩
  have other : f ≠ pa / PGSIZE := by
    rintro rfl
    exact named free
  exact (List.mem_erase_of_ne other).mpr (shape.reserved f named)

/-- The effect of unmapping and releasing the page at `va` of a process. -/
structure Unmapped (env : PageEnv σ) (k : Kernel σ) (pid va : ℕ) (k' : Kernel σ) : Prop where
  procs : k'.procs = k.procs
  current : k'.current = k.current
  tp : k'.tp = k.tp
  ptes : ∀ pid', HasSpace k pid' → ∀ va', pteOf k' pid' va' =
    if has (pteOf k pid va) PTE_V = true then editPte (pteOf k) pid va 0 pid' va' else pteOf k pid' va'
  trace : k'.trace = if has (pteOf k pid va) PTE_V = true
    then .free (PTE2PA (pteOf k pid va)) :: k.trace else k.trace
  pool : if has (pteOf k pid va) PTE_V = true then env.free (PTE2PA (pteOf k pid va)) k = .ok () k'.pool
    else k'.pool = k.pool

section

variable {k : Kernel σ} {own : Owner} {pid : ℕ}

theorem leafTable_none {va : ℕ} (none : leafTable k.mem (rootOf k pid) va = none) : pteOf k pid va = 0 := by
  rw [pteOf, translate, none]

theorem leafTable_some {va t : ℕ} (some : leafTable k.mem (rootOf k pid) va = some t) :
    k.mem t (PX 0 va) = pteOf k pid va := by
  rw [pteOf, translate, some]

/-- What one round of `user_vm_unmap` with `free` set does. -/
inductive UnmapRound (env : PageEnv σ) (k : Kernel σ) (pid va : ℕ) : Kernel σ → Prop
  | skipped (invalid : has (pteOf k pid va) PTE_V = false) : UnmapRound env k pid va k
  | released {t : ℕ} {pool : σ} (found : leafTable k.mem (rootOf k pid) va = some t)
      (valid : has (pteOf k pid va) PTE_V = true) (call : env.free (PTE2PA (pteOf k pid va)) k = .ok () pool) :
      UnmapRound env k pid va ((k.gave (PTE2PA (pteOf k pid va)) pool).setWord t (PX 0 va) 0)

theorem unmapRound {n first : ℕ} {post : Unit → Kernel σ → Prop}
    (next : ∀ k', UnmapRound env k pid first k' →
      Yields (userVmUnmapLoop env (k.procs pid).pagetable true n ((first + PGSIZE) % WORD)) k' post) :
    Yields (userVmUnmapLoop env (k.procs pid).pagetable true (n + 1) first) k post := by
  rw [userVmUnmapLoop]
  have walk := pageWalk_read env (k.procs pid).pagetable first k
  by_cases range : 0 < first ∧ first < MAXVA
  · rw [if_pos range] at walk
    refine Ensures.step walk ?_
    cases found : leafTable k.mem (rootOf k pid) first with
    | none =>
      rw [show leafTable k.mem ((k.procs pid).pagetable / PGSIZE) first = none from found]
      exact next k (.skipped (by rw [leafTable_none found, not_has_zero]))
    | some t =>
      rw [show leafTable k.mem ((k.procs pid).pagetable / PGSIZE) first = some t from found]
      simp only [Option.map_some]
      refine Ensures.step (get_apply k) ?_
      simp only [pteAt, leafTable_some found]
      by_cases valid : has (pteOf k pid first) PTE_V = true
      · rw [if_pos valid]
        simp only [if_true]
        cases call : env.free (PTE2PA (pteOf k pid first)) k with
        | error e pool =>
          have stops : env.pfree (PTE2PA (pteOf k pid first)) k = .error e { k with pool := pool } := by
            rw [PageEnv.pfree, call]
          exact Ensures.fails stops trivial
        | ok _ pool =>
          have frees : env.pfree (PTE2PA (pteOf k pid first)) k =
            .ok () (k.gave (PTE2PA (pteOf k pid first)) pool) := by
            rw [PageEnv.pfree, call]
          refine Ensures.step frees ?_
          exact Ensures.step (modify_apply _ _) (next _ (.released found valid call))
      · rw [if_neg valid]
        exact next k (.skipped (Bool.eq_false_of_not_eq_true valid))
  · rw [if_neg range] at walk
    exact Ensures.fails walk trivial

/-- One round of `user_vm_unmap` with `free` set, over intact tables. -/
theorem Shape.unmapRound (shape : Shape trapSec k own) (inside : HasSpace k pid) {n first : ℕ}
    {post : Unit → Kernel σ → Prop}
    (next : ∀ k', Unmapped env k pid first k' → Shape trapSec k' own →
      Yields (userVmUnmapLoop env (k.procs pid).pagetable true n ((first + PGSIZE) % WORD)) k' post) :
    Yields (userVmUnmapLoop env (k.procs pid).pagetable true (n + 1) first) k post := by
  refine Proofs.unmapRound fun k' round => ?_
  cases round with
  | skipped invalid =>
    have vacant : has (pteOf k pid first) PTE_V ≠ true := by rw [invalid]; decide
    exact next k ⟨rfl, rfl, rfl, fun _ _ _ => (if_neg vacant).symm, (if_neg vacant).symm,
      (if_neg vacant).mpr rfl⟩ shape
  | @released t pool found valid call =>
    obtain ⟨data, small⟩ := shape.leaves pid inside first valid
    have page : PTE2PA (pteOf k pid first) / PGSIZE = frameOf (pteOf k pid first) := PTE2PA_page small
    have zero : LeafOk own 0 := fun valid => absurd valid (by decide)
    obtain ⟨shape', ptes⟩ := (shape.gave (page ▸ data) pool).setLeaf inside found zero
    refine next _ ⟨rfl, rfl, rfl, fun pid' inside' va' => ?_, (if_pos valid).symm,
      (if_pos valid).mpr call⟩ shape'
    rw [if_pos valid]
    exact ptes pid' inside' va'

end

/-- The effect of `sys_user_free_page(va)` for an aligned page of the heap. -/
structure Freed (env : PageEnv σ) (k : Kernel σ) (va : ℕ) (k' : Kernel σ) : Prop where
  inside : ∀ pid, HasSpace k' pid ↔ HasSpace k pid
  current : k'.current = k.current
  tp : k'.tp = k.tp
  ptes : ∀ pid, HasSpace k pid → ∀ va', pteOf k' pid va' =
    if has (pteOf k k.current va) PTE_V = true then editPte (pteOf k) k.current va 0 pid va'
      else pteOf k pid va'
  trace : k'.trace = .release k.current va ::
    if has (pteOf k k.current va) PTE_V = true
      then .free (PTE2PA (pteOf k k.current va)) :: k.trace else k.trace
  pool : if has (pteOf k k.current va) PTE_V = true
    then env.free (PTE2PA (pteOf k k.current va)) k = .ok () k'.pool
    else k'.pool = k.pool

/-- The heap manager after `free_pages_address[free_pages_count++] = va`. -/
def releaseInto (va : ℕ) (p : Process) : Process :=
  { p with userHeap := { p.userHeap with
      freePagesAddress := Function.update p.userHeap.freePagesAddress p.userHeap.freePagesCount va
      freePagesCount := incr32 p.userHeap.freePagesCount } }

theorem pushFreePage_of_room {i va : ℕ} {k : Kernel σ}
    (room : (k.procs i).userHeap.freePagesCount < MAX_HEAP_PAGES) :
    pushFreePage i va k = .ok () (k.setProc i (releaseInto va)) := by
  rw [pushFreePage, bind_of_ok (get_apply k), if_pos room]
  rfl

theorem pushFreePage_full {i va : ℕ} {k : Kernel σ}
    (full : ¬ (k.procs i).userHeap.freePagesCount < MAX_HEAP_PAGES) :
    pushFreePage i va k = .error .outOfBounds k := by
  rw [pushFreePage, bind_of_ok (get_apply k), if_neg full]
  rfl

/-- A push that returns is the one into the array. -/
theorem yields_pushFreePage {α : Type} {i va : ℕ} {k : Kernel σ} {f : Unit → Exec (Kernel σ) α}
    {post : α → Kernel σ → Prop} (rest : Yields (f ()) (k.setProc i (releaseInto va)) post) :
    Yields (pushFreePage i va >>= f) k post := by
  by_cases room : (k.procs i).userHeap.freePagesCount < MAX_HEAP_PAGES
  · exact Ensures.step (pushFreePage_of_room room) rest
  · exact Ensures.fails (pushFreePage_full room) trivial

section

variable {k : Kernel σ} {own : Owner}

theorem unmap_rounds {va : ℕ} (aligned : va % PGSIZE = 0) (word : va + PGSIZE < WORD) :
    ((va + PGSIZE) % WORD - ROUNDDOWN va PGSIZE + PGSIZE - 1) / PGSIZE = 1 := by
  rw [Nat.mod_eq_of_lt word, roundDown_self aligned, Nat.add_sub_cancel_left]
  decide

/-- `sys_user_free_page` of a page of the heap that is not recorded. -/
theorem Sane.sysUserFreePage (sane : Sane trapSec k own) (live : Live k k.current) {va : ℕ}
    (free : FreeOk (k.procs k.current).userHeap va) :
    Yields (sysUserFreePage env va) k fun _ k' => Sane trapSec k' own ∧ Freed env k va k' := by
  obtain ⟨inside, status⟩ := live
  have ok := sane.procs _ inside
  have below : va < STACK_PAGE := ok.heap_below free.high
  have word : va + PGSIZE < WORD := by
    simp only [STACK_PAGE, USER_STACK_TOP, PGSIZE, WORD] at *
    omega
  have count : incr32 (k.procs k.current).userHeap.freePagesCount =
    (k.procs k.current).userHeap.freePagesCount + 1 := by
    have room := free.room
    rw [incr32, Nat.mod_eq_of_lt]
    simp only [MAX_HEAP_PAGES] at room
    omega
  rw [Model.sysUserFreePage]
  refine Ensures.step (get_apply k) ?_
  refine Ensures.step (get_apply k) ?_
  rw [userVmUnmap, unmap_rounds free.aligned word, roundDown_self free.aligned]
  have loop : Yields (userVmUnmapLoop env (k.procs k.current).pagetable true 1 va) k fun _ k' =>
      Unmapped env k k.current va k' ∧ Shape trapSec k' own :=
    sane.shape.unmapRound inside fun k' unmapped shape => ⟨unmapped, shape⟩
  refine Ensures.bind loop ?_
  rintro _ k₁ ⟨unmapped, shape₁⟩
  refine yields_pushFreePage ?_
  have keeps : ∀ p : Process, (releaseInto va p).pagetable = p.pagetable ∧
      (releaseInto va p).status = p.status :=
    fun _ => ⟨rfl, rfl⟩
  change Sane trapSec ((k₁.setProc k.current (releaseInto va)).record (.release k.current va)) own ∧
    Freed env k va ((k₁.setProc k.current (releaseInto va)).record (.release k.current va))
  have insideIff : ∀ pid, HasSpace (k₁.setProc k.current (releaseInto va)) pid ↔ HasSpace k pid := fun pid => by
    rw [hasSpace_setProc keeps, HasSpace, HasSpace, unmapped.procs]
  have ptes : ∀ pid, HasSpace k pid → ∀ va', pteOf (k₁.setProc k.current (releaseInto va)) pid va' =
      if has (pteOf k k.current va) PTE_V = true then editPte (pteOf k) k.current va 0 pid va'
        else pteOf k pid va' :=
    fun pid inside va' => by rw [pteOf_setProc (keeps _).1, unmapped.ptes pid inside]
  have shape : Shape trapSec ((k₁.setProc k.current (releaseInto va)).record (.release k.current va)) own := by
    refine shape₁.restrict rfl (fun f taken => taken) fun pid inside' => ?_
    have old := (insideIff pid).mp inside'
    exact ⟨by rw [HasSpace, unmapped.procs]; exact old, pagetable_setProc (keeps _).1 pid⟩
  refine ⟨⟨shape, fun pid inside' => ?_⟩, insideIff, unmapped.current, unmapped.tp, ptes,
    congrArg (PageEvent.release k.current va :: ·) unmapped.trace, unmapped.pool⟩
  have old := (insideIff pid).mp inside'
  change ProcOk ((k₁.setProc k.current (releaseInto va)).procs pid)
    (pteOf (k₁.setProc k.current (releaseInto va)) pid)
  by_cases here : pid = k.current
  · subst here
    rw [Kernel.setProc_procs_self, unmapped.procs]
    refine ok.push free status rfl rfl ?_ ?_ ?_ fun a page => pteOf_congr page
    · rw [releaseInto, count]
    · rw [ptes _ old]
      split_ifs with valid
      · rw [editPte, if_pos ⟨rfl, rfl⟩]
        decide
      · simpa using valid
    · intro a page
      rw [ptes _ old, editPte, if_neg (c := _ ∧ _) fun both => page both.2, ite_self]
  · rw [Kernel.setProc_procs_of_ne _ _ _ here, unmapped.procs]
    refine (sane.procs pid old).congr rfl rfl rfl id fun va' => ?_
    rw [ptes pid old, editPte, if_neg (c := _ ∧ _) fun both => here both.1, ite_self]
    exact .refl _

end

section

theorem has_or (a b n : ℕ) : has (a ||| b) (2 ^ n) = (has a (2 ^ n) || has b (2 ^ n)) := by
  simp only [has_eq_testBit, Nat.testBit_or]

theorem has_two_pow (m n : ℕ) : has (2 ^ m) (2 ^ n) = decide (m = n) := by
  rw [has_eq_testBit, Nat.testBit_two_pow]

theorem has_clear (w m n : ℕ) : has (clear w (2 ^ m)) (2 ^ n) = (has w (2 ^ n) && decide (m ≠ n)) := by
  rw [has_eq_testBit, has_eq_testBit, clear, Nat.testBit_xor, Nat.testBit_and, Nat.testBit_two_pow]
  cases w.testBit n <;> by_cases same : m = n <;> simp [same]

theorem has_mod {n : ℕ} (low : n < 10) (w : ℕ) : has (w % 2 ^ 10) (2 ^ n) = has w (2 ^ n) := by
  rw [has_eq_testBit, has_eq_testBit, Nat.testBit_mod_two_pow]
  simp [low]

private theorem frameOf_eq {a b : ℕ} (high : ∀ n, 10 ≤ n → a.testBit n = b.testBit n) :
    frameOf a = frameOf b := by
  refine Nat.eq_of_testBit_eq fun n => ?_
  rw [frameOf, frameOf, Nat.testBit_div_two_pow, Nat.testBit_div_two_pow]
  exact high _ (Nat.le_add_left _ _)

theorem frameOf_clear (w : ℕ) {m : ℕ} (low : m < 10) : frameOf (clear w (2 ^ m)) = frameOf w := by
  refine frameOf_eq fun n high => ?_
  have bit := has_clear w m n
  rw [has_eq_testBit, has_eq_testBit] at bit
  rw [bit]
  simp only [Bool.and_eq_left_iff_imp, decide_eq_true_eq]
  omega

theorem frameOf_or_flag (w : ℕ) {m : ℕ} (low : m < 10) : frameOf (w ||| 2 ^ m) = frameOf w := by
  refine frameOf_eq fun n high => ?_
  rw [Nat.testBit_or, Nat.testBit_two_pow]
  simp only [Bool.or_eq_left_iff_imp, decide_eq_true_eq]
  omega

/-- The entry of a page that its only user may write again. -/
def unshared (pte : ℕ) : ℕ := clear (pte ||| PTE_W) PTE_COW

/-- The entry of the private copy `f` of a shared page. -/
def copied (pte f : ℕ) : ℕ := f * 2 ^ 10 ||| clear (pte % 2 ^ 10) PTE_COW ||| PTE_W

theorem frameOf_unshared (pte : ℕ) : frameOf (unshared pte) = frameOf pte :=
  (frameOf_clear (pte ||| PTE_W) (m := 8) (by decide)).trans (frameOf_or_flag pte (m := 2) (by decide))

theorem has_unshared (pte n : ℕ) :
    has (unshared pte) (2 ^ n) = ((has pte (2 ^ n) || decide (2 = n)) && decide (8 ≠ n)) := by
  rw [unshared, show PTE_COW = 2 ^ 8 from rfl, show PTE_W = 2 ^ 2 from rfl, has_clear, has_or, has_two_pow]

theorem unshared_access (pte : ℕ) : SameAccess pte (unshared pte) := by
  have bit : ∀ n, n ≠ 2 → n ≠ 8 → has (unshared pte) (2 ^ n) = has pte (2 ^ n) := fun n first second => by
    rw [has_unshared]
    simp [Ne.symm first, Ne.symm second]
  exact ⟨bit 0 (by decide) (by decide), bit 4 (by decide) (by decide), bit 1 (by decide) (by decide)⟩

private theorem flags_lt (pte : ℕ) : clear (pte % 2 ^ 10) PTE_COW ||| PTE_W < 2 ^ 10 := by
  have small : pte % 2 ^ 10 < 2 ^ 10 := Nat.mod_lt _ (by decide)
  exact Nat.or_lt_two_pow (Nat.xor_lt_two_pow small (Nat.and_lt_two_pow _ (by decide))) (by decide)

theorem frameOf_copied (pte f : ℕ) : frameOf (copied pte f) = f := by
  rw [copied, Nat.lor_assoc]
  exact frameOf_or (flags_lt pte)

theorem has_copied {n : ℕ} (low : n < 10) (pte f : ℕ) :
    has (copied pte f) (2 ^ n) = (has pte (2 ^ n) && decide (8 ≠ n) || decide (2 = n)) := by
  have none : has (f * 2 ^ 10) (2 ^ n) = false := by
    rw [has_eq_testBit, Nat.testBit_mul_two_pow]
    simp [low]
  rw [copied, show PTE_COW = 2 ^ 8 from rfl, show PTE_W = 2 ^ 2 from rfl, has_or, has_or, none, has_clear,
    has_mod low, has_two_pow, Bool.false_or]

theorem copied_access (pte f : ℕ) : SameAccess pte (copied pte f) := by
  have bit : ∀ n, n < 10 → n ≠ 2 → n ≠ 8 → has (copied pte f) (2 ^ n) = has pte (2 ^ n) :=
    fun n low first second => by
    rw [has_copied low]
    simp [Ne.symm first, Ne.symm second]
  exact ⟨bit 0 (by decide) (by decide) (by decide), bit 4 (by decide) (by decide) (by decide),
    bit 1 (by decide) (by decide) (by decide)⟩

end

/-- One leaf entry of the running process was replaced. -/
structure Replaced (k : Kernel σ) (va pte : ℕ) (k' : Kernel σ) : Prop where
  procs : k'.procs = k.procs
  current : k'.current = k.current
  tp : k'.tp = k.tp
  ptes : ∀ pid, HasSpace k pid → ∀ va', pteOf k' pid va' = editPte (pteOf k) k.current va pte pid va'

/-- The effect of a handled store fault: the page becomes writable again, or the process gets a copy and
the shared page is passed to `pfree`. -/
inductive Resolved (S : Supply env trapSec) (k : Kernel σ) (own : Owner) (va : ℕ) (k' : Kernel σ) : Prop
  | alone (single : ¬ env.refs (PTE2PA (pteOf k k.current va)) k > 1)
      (replaced : Replaced k va (unshared (pteOf k k.current va)) k') (space : Space S k' own)
  | copy (mid : Kernel σ) (f : ℕ) (pool : σ) (shared : env.refs (PTE2PA (pteOf k k.current va)) k > 1)
      (fresh : ¬ Mapped k f) (replaced : Replaced k va (copied (pteOf k k.current va) f) mid)
      (space : Space S mid own) (call : env.free (PTE2PA (pteOf k k.current va)) mid = .ok () pool)
      (result : k' = mid.gave (PTE2PA (pteOf k k.current va)) pool)

section

variable {k k' : Kernel σ} {own : Owner}

theorem Replaced.hasSpace {va pte : ℕ} (replaced : Replaced k va pte k') {pid : ℕ} :
    HasSpace k' pid ↔ HasSpace k pid := by
  simp only [HasSpace, replaced.procs]

/-- Replacing an entry by one with the same access keeps the invariant of the processes. -/
theorem Replaced.procsOk {va pte : ℕ} (replaced : Replaced k va pte k') (procs : Procs k)
    (access : SameAccess (pteOf k k.current va) pte) : Procs k' := by
  intro pid inside
  have old := replaced.hasSpace.mp inside
  rw [replaced.procs]
  refine (procs pid old).congr rfl rfl rfl id fun va' => ?_
  rw [replaced.ptes pid old, editPte]
  split_ifs with here
  · rw [here.1, pteOf_congr here.2]
    exact access
  · exact .refl _

/-- Storing a new leaf entry for a page that may be mapped. -/
theorem Space.replace (space : Space S k own) (inside : HasSpace k k.current) {va t pte : ℕ}
    (found : leafTable k.mem (rootOf k k.current) va = some t) (free : own (frameOf pte) = none)
    (small : frameOf pte < 2 ^ 44) (source : frameOf pte ∈ S.Kept k.trace ∨ frameOf pte = trapSec) :
    Space S (k.setWord t (PX 0 va) pte) own ∧ Replaced k va pte (k.setWord t (PX 0 va) pte) := by
  obtain ⟨stored, ptes⟩ := space.setLeaf inside found (fun _ => ⟨free, small⟩) fun _ => source
  exact ⟨stored, rfl, rfl, rfl, ptes⟩

/-- `handle_user_page_fault` for a store fault that it handles. -/
theorem Space.handleUserPageFault (space : Space S k own) (inside : HasSpace k k.current) (va : ℕ) :
    Yields (handleUserPageFault env CAUSE_STORE_PAGE_FAULT va) k fun _ k' =>
      has (pteOf k k.current va) PTE_V = true ∧ has (pteOf k k.current va) PTE_COW = true ∧
      Resolved S k own va k' := by
  rw [Model.handleUserPageFault, if_pos rfl]
  refine Ensures.step (get_apply k) ?_
  refine Ensures.step (get_apply k) ?_
  have walk := pageWalk_read env (k.procs k.current).pagetable va k
  by_cases range : 0 < va ∧ va < MAXVA
  · rw [if_pos range] at walk
    refine Ensures.step walk ?_
    cases found : leafTable k.mem (rootOf k k.current) va with
    | none =>
      rw [show leafTable k.mem ((k.procs k.current).pagetable / PGSIZE) va = none from found]
      trivial
    | some t =>
      rw [show leafTable k.mem ((k.procs k.current).pagetable / PGSIZE) va = some t from found]
      simp only [Option.map_some]
      refine Ensures.step (get_apply k) ?_
      simp only [pteAt, leafTable_some found]
      by_cases handled : (has (pteOf k k.current va) PTE_V && has (pteOf k k.current va) PTE_COW) = true
      · rw [if_pos handled]
        obtain ⟨valid, cow⟩ := Bool.and_eq_true_iff.mp handled
        obtain ⟨data, small⟩ := space.leaves k.current inside va valid
        have source := space.kept _ ⟨k.current, inside, va, valid, rfl⟩
        refine Ensures.step (a := env.refs (PTE2PA (pteOf k k.current va)) k) (t := k) rfl ?_
        by_cases shared : env.refs (PTE2PA (pteOf k k.current va)) k > 1
        · rw [if_pos shared]
          refine Ensures.bind (space.alloc (trivialStops env)) ?_
          rintro _ _ ⟨f, pool, rfl, ram, _, _, unmapped, held, rfl, grown⟩
          rw [if_neg (ram_ne_zero ram), Nat.mul_div_cancel f (show 0 < PGSIZE by decide), PA2PTE_page]
          refine Ensures.step (modify_apply _ _) ?_
          refine Ensures.step (get_apply _) ?_
          -- the copied page is no table, so the slot is still the leaf entry of the address
          have words := fun words => grown.space.setData (k := k.took (f * PGSIZE) pool) held.free words
          have table : own t ≠ none := by
            rw [space.tables.leafTable_owner (space.roots _ inside) found]
            simp
          have apart : t ≠ f := fun same => table (same ▸ held.free)
          obtain ⟨copy, copyIs⟩ : ∃ copy,
            copy = (k.took (f * PGSIZE) pool).mem (PTE2PA (pteOf k k.current va) / PGSIZE) := ⟨_, rfl⟩
          rw [← copyIs]
          have entry : ((k.took (f * PGSIZE) pool).setPage f copy).mem t (PX 0 va) = pteOf k k.current va := by
            rw [← leafTable_some found]
            exact congrFun (Function.update_of_ne apart _ _) _
          have found' : leafTable ((k.took (f * PGSIZE) pool).setPage f copy).mem
            (rootOf k k.current) va = some t := by
            rw [← found]
            exact space.tables.leafTable_congr (fun _ _ _ named _ => Tables.update_data held.free copy named)
              (space.roots _ inside) va
          simp only [entry]
          refine Ensures.step (modify_apply _ _) ?_
          have frame := frameOf_copied (pteOf k k.current va) f
          obtain ⟨space', replaced⟩ := (words copy).replace inside found' (frame.symm ▸ held.free)
            (frame.symm ▸ held.small)
            (Or.inl (frame.symm ▸ held.kept))
          have resolved : Replaced k va (copied (pteOf k k.current va) f)
              (((k.took (f * PGSIZE) pool).setPage f copy).setWord
              t (PX 0 va) (copied (pteOf k k.current va) f)) := by
            refine ⟨rfl, rfl, rfl, fun pid inside' va' => ?_⟩
            have stored := replaced.ptes pid inside' va'
            change _ = if pid = k.current ∧ pageOf va' = pageOf va then _ else _ at stored
            rw [stored, editPte]
            split_ifs with here
            · rfl
            · exact space.dataPte held.free copy inside' va'
          refine Ensures.of_run fun _ k' call => ?_
          rw [PageEnv.pfree] at call
          split at call
          · rename_i pool' freed
            obtain ⟨-, rfl⟩ := EStateM.Result.ok.inj call
            exact ⟨valid, cow, .copy _ f pool' shared unmapped resolved space' freed rfl⟩
          · cases call
        · rw [if_neg shared]
          rw [← frameOf_unshared] at data small source
          obtain ⟨space', replaced⟩ := space.replace inside found data small source
          exact ⟨valid, cow, .alone shared replaced space'⟩
      · rw [if_neg handled]
        trivial
  · rw [if_neg range] at walk
    exact Ensures.fails walk trivial

end

end Pke.Proofs
