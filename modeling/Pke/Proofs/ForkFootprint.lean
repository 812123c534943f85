import Pke.Proofs.Footprint

/-! # What `alloc_process` and `do_fork` write

Both take pages for a new process. `do_fork` works on the page tables of parent and child only, and
the pages that it lends to the child are those of the parent and the stack page that `alloc_process`
took.
-/

namespace Pke.Proofs

open Pke.Lib Pke.Model

variable {σ : Type} {env : PageEnv σ} {trapSec : ℕ}

/-- The entries of a process lead to the same pages for the same access; write access may be gone. -/
def SameLeaves (k k' : Kernel σ) (pid : ℕ) : Prop :=
  ∀ va, SameAccess (pteOf k pid va) (pteOf k' pid va) ∧ frameOf (pteOf k' pid va) = frameOf (pteOf k pid va)

/-- The loop of `do_fork`, which began in `k₀`. -/
structure Sharing (P : UserPages env trapSec) (parent child : ℕ) (k₀ : Kernel σ) (own₀ : ℕ → Owner)
    (k : Kernel σ) (own : ℕ → Owner) : Prop extends Enclosed P {parent, child}
    (userFrames k₀) k₀ own₀ k own where
  proc : k.procs parent = k₀.procs parent
  leaves : SameLeaves k₀ k parent

namespace Sharing

variable {P : UserPages env trapSec} {parent child : ℕ} {k₀ k : Kernel σ} {own₀ own : ℕ → Owner}

/-- The pages of the parent may be lent. -/
theorem lent (copying : Sharing P parent child k₀ own₀ k own) {va : ℕ} (leaf : UserLeaf (pteOf k₀ parent va)) :
    frameOf (pteOf k₀ parent va) ∈ userFrames k₀ :=
  ⟨parent, va, (copying.hasSpace parent).mp (copying.inside parent (Or.inl rfl)), leaf, rfl⟩

/-- One page of a stack or heap region that the user can access. -/
theorem sharePage (copying : Sharing P parent child k₀ own₀ k own) (apart : parent ≠ child) {va : ℕ}
    (user : has (pteOf k₀ parent va) PTE_V = true → has (pteOf k₀ parent va) PTE_U = true) :
    Yields (forkSharePage env parent child va) k fun _ k' => ∃ own',
    Sharing P parent child k₀ own₀ k' own' := by
  have enclosed := copying.toEnclosed
  have memberP : parent ∈ ({parent, child} : Set ℕ) := Or.inl rfl
  have memberC : child ∈ ({parent, child} : Set ℕ) := Or.inr rfl
  have insideP := enclosed.inside parent memberP
  have insideC := enclosed.inside child memberC
  refine forkSharePage_cases (fun _ => ⟨own, copying⟩) fun t found valid => ?_
  obtain ⟨access, frame⟩ := copying.leaves va
  have leaf : UserLeaf (pteOf k₀ parent va) := by
    rw [access.1] at valid
    exact ⟨valid, user valid⟩
  have accessS := shared_access (pteOf k parent va)
  have validS : has (shared (pteOf k parent va)) PTE_V = true := accessS.1.trans valid
  have granted : Granted trapSec (userFrames k₀) k₀ va (shared (pteOf k parent va)) := by
    refine ⟨Or.inl (accessS.2.1.trans (access.2.1.trans leaf.2)), fun _ => Or.inl ?_⟩
    rw [frameOf_shared, frame]
    exact copying.lent leaf
  have enclosed₁ := enclosed.setLeaf memberP found (fun _ => validS) fun _ => granted
  obtain ⟨-, ptes₁, _⟩ := enclosed.forest.setLeaf insideP found fun _ => validS
  have entry : (k.setWord t (PX 0 va) (shared (pteOf k parent va))).mem t (PX 0 va) =
    shared (pteOf k parent va) := by
    simp [Kernel.setWord]
  have rooted := enclosed.forest.rooted parent insideP
  have named : own parent t ≠ none := by
    rw [rooted.tables.leafTable_owner rooted.root found]
    exact Option.some_ne_none _
  refine Ensures.step (get_apply _) ?_
  rw [entry]
  refine Ensures.step (modify_apply _ _) ?_
  refine Ensures.step (get_apply _) ?_
  refine (enclosed₁.share _).walk memberC fun k₂ own₂ t₂ enclosed₂ found₂ procs₂ ptes₂ pages₂ => ?_
  refine Ensures.step (get_apply k₂) ?_
  have kept : k₂.mem t (PX 0 va) = shared (pteOf k parent va) := by
    rw [pages₂ t (enclosed.forest.taken parent insideP t named)
      (enclosed.forest.apart parent child insideP insideC apart t named)]
    exact entry
  rw [kept]
  obtain ⟨-, _, others₃⟩ := enclosed₂.forest.setLeaf (enclosed₂.inside child memberC) found₂ fun _ => validS
  refine ⟨own₂, enclosed₂.setLeaf memberC found₂ (fun _ => validS) fun _ => granted, ?_, fun va' => ?_⟩
  · change k₂.procs parent = k₀.procs parent
    rw [procs₂]
    exact copying.proc
  · have parentPte : pteOf (k₂.setWord t₂ (PX 0 va) (shared (pteOf k parent va))) parent va' =
        if pageOf va' = pageOf va then shared (pteOf k parent va) else pteOf k parent va' := by
      rw [others₃ parent apart (enclosed₂.inside parent memberP), ptes₂ parent insideP]
      exact ptes₁ va'
    rw [parentPte]
    split_ifs with page
    · obtain ⟨accessV, accessU, accessR⟩ := access
      rw [pteOf_congr page, frameOf_shared, frame]
      exact ⟨⟨accessS.1.trans accessV, accessS.2.1.trans accessU, accessS.2.2.trans accessR⟩, rfl⟩
    · exact copying.leaves va'

/-- The page of a code region. -/
theorem codePage (copying : Sharing P parent child k₀ own₀ k own) (apart : parent ≠ child) {h : HeapManager}
    {region : MappedRegion} (loaded : Loaded h (pteOf k₀ parent) region)
    (small : frameOf (pteOf k₀ parent region.va) < 2 ^ 44) :
    Yields (forkCodePage env parent child region.va) k fun _ k' => ∃ own',
    Sharing P parent child k₀ own₀ k' own' := by
  have enclosed := copying.toEnclosed
  have memberC : child ∈ ({parent, child} : Set ℕ) := Or.inr rfl
  obtain ⟨access, frame⟩ := copying.leaves region.va
  rw [forkCodePage]
  refine Ensures.step (get_apply k) ?_
  refine Ensures.step (lookupPa_readable (access.1.trans loaded.leaf.1)
    (access.2.2.trans loaded.readable) loaded.low loaded.high) ?_
  refine Ensures.step (get_apply k) ?_
  rw [PTE2PA_eq (frame ▸ small), frame]
  refine Ensures.mono (enclosed.mapPage memberC loaded.aligned (loaded.high.trans (by decide)) _ _ fun _ =>
    granted_page (by decide) (by decide) (Or.inl (copying.lent loaded.leaf))) ?_
  rintro _ k' ⟨own', enclosed', _, procs, _, ptes⟩
  refine ⟨own', enclosed', by rw [procs]; exact copying.proc, fun va => ?_⟩
  rw [ptes parent (enclosed.inside parent (Or.inl rfl)), if_neg fun both => apart both.1]
  exact copying.leaves va

/-- Changing other fields of the child. -/
theorem setChild (copying : Sharing P parent child k₀ own₀ k own) (apart : parent ≠ child)
    {change : Process → Process} (space : ∀ p, SameSpace p (change p)) :
    Sharing P parent child k₀ own₀ (k.setProc child change) own := by
  refine ⟨copying.toEnclosed.setProc (Or.inr rfl) space, ?_, fun va => ?_⟩
  · rw [Kernel.setProc_procs_of_ne _ _ _ apart]
    exact copying.proc
  · rw [pteOf_setProc (space _).pagetable]
    exact copying.leaves va

/-- A counting loop of such parts. -/
theorem rounds {body : ℕ → Exec (Kernel σ) Unit} (copying : Sharing P parent child k₀ own₀ k own) (n : ℕ)
    (round : ∀ i < n, ∀ k own, Sharing P parent child k₀ own₀ k own →
      Yields (body i) k fun _ k' => ∃ own', Sharing P parent child k₀ own₀ k' own') :
    Yields ((List.range n).forM body) k fun _ k' => ∃ own', Sharing P parent child k₀ own₀ k' own' := by
  apply Ensures.forM_range
  · exact ⟨own, copying⟩
  rintro i below k' ⟨own', copying'⟩
  exact round i below k' own' copying'

/-- One round of the loop of `do_fork` over the regions of the parent. -/
theorem region (copying : Sharing P parent child k₀ own₀ k own) (apart : parent ≠ child)
    (ok : ProcOk (k₀.procs parent) (pteOf k₀ parent))
    (lawful : ∀ va, has (pteOf k₀ parent va) PTE_V = true → Lawful va (pteOf k₀ parent va))
    (small : ∀ va, has (pteOf k₀ parent va) PTE_V = true → frameOf (pteOf k₀ parent va) < 2 ^ 44) {i : ℕ}
    (below : i < (k₀.procs parent).totalMappedRegion) :
    Yields (forkRegion env parent child i) k fun _ k' => ∃ own', Sharing P parent child k₀ own₀ k' own' := by
  -- pages up to the stack are not reserved for the kernel
  have user : ∀ va, pageOf va ≤ pageOf STACK_PAGE → has (pteOf k₀ parent va) PTE_V = true →
      has (pteOf k₀ parent va) PTE_U = true :=
    fun va low valid => (lawful va valid).resolve_right fun above => absurd above.1 (Nat.not_lt.mpr low)
  rw [forkRegion]
  refine Ensures.step (get_apply k) ?_
  rw [copying.proc]
  obtain rfl | rfl | rfl | rfl | late : i = 0 ∨ i = 1 ∨ i = 2 ∨ i = 3 ∨ 4 ≤ i := by omega
  · rw [ok.fixed.stack]
    refine copying.rounds _ fun n first k own copying => copying.sharePage apart (user _ ?_)
    obtain rfl := Nat.lt_one_iff.mp first
    decide
  · simp only [ok.fixed.context.1]
    exact ⟨own, copying.setChild apart fun _ => ⟨rfl, rfl, rfl, rfl, rfl⟩⟩
  · simp only [ok.fixed.system.1]
    exact ⟨own, copying⟩
  · simp only [ok.fixed.heap.1]
    refine Ensures.bind (copying.rounds _ fun n below k own copying => copying.sharePage apart (user _ ?_)) ?_
    · obtain ⟨_, _, high⟩ := ok.heapPage below
      have top := ok.heap_below high
      simp only [pageOf, STACK_PAGE, USER_STACK_TOP, PGSIZE] at *
      omega
    rintro _ k' ⟨own', copying'⟩
    exact ⟨own', copying'.setChild apart fun _ => ⟨rfl, rfl, rfl, rfl, rfl⟩⟩
  · have loaded := ok.loaded i late below
    rcases loaded.type with code | data
    · simp only [code]
      refine Ensures.step (get_apply k) ?_
      have access := (copying.leaves ((k₀.procs parent).regions i).va).1
      refine Ensures.step (lookupPa_readable (access.1.trans loaded.leaf.1)
        (access.2.2.trans loaded.readable) loaded.low
        loaded.high) ?_
      refine Ensures.bind (copying.rounds _ fun n below k own copying => ?_) ?_
      · rw [loaded.single] at below
        obtain rfl := Nat.lt_one_iff.mp below
        rw [regionPage_zero loaded.high]
        exact copying.codePage apart loaded (small _ loaded.leaf.1)
      rintro _ k' ⟨own', copying'⟩
      exact ⟨own', copying'.setChild apart fun _ => ⟨rfl, rfl, rfl, rfl, rfl⟩⟩
    · simp only [data]
      exact ⟨own, copying⟩

end Sharing

/-- An entry above the stack that the user cannot access. -/
theorem granted_kernel {lent : Set ℕ} {k₀ : Kernel σ} {va f perm : ℕ}
    (kernel : has (perm ||| PTE_V) PTE_U = false) (alone : has (perm ||| PTE_V) PTE_COW = false)
    (low : KERN_BASE ≤ va) (high : va < MAXVA) :
    Granted trapSec lent k₀ va (PA2PTE (f * PGSIZE) ||| perm ||| PTE_V) := by
  rw [PA2PTE_page]
  have above : pageOf STACK_PAGE < pageOf va := by
    simp only [pageOf, STACK_PAGE, USER_STACK_TOP, PGSIZE, KERN_BASE, MAXVA] at *
    omega
  refine ⟨Or.inr ⟨above, (has_leaf (n := 8) (by decide) f perm).trans alone⟩, fun user => ?_⟩
  rw [show PTE_U = 2 ^ 4 from rfl, has_leaf (by decide)] at user
  rw [show PTE_U = 2 ^ 4 from rfl, user] at kernel
  cases kernel

section

variable {lay : Layout} {P : UserPages env (lay.trapSecStart / PGSIZE)} {who lent : Set ℕ} {k₀ k : Kernel σ}
  {own₀ own : ℕ → Owner} {c : ℕ}

/-- Mapping a page of the process and entering it in the region table. -/
private theorem Enclosed.mapRegion {va pa perm r n : ℕ} {region : MappedRegion} {α : Type}
    {rest : Exec (Kernel σ) α} {post : α → Kernel σ → Prop} (enclosed : Enclosed P who lent k₀ own₀ k own)
    (member : c ∈ who) (root : (k.procs c).pagetable = r) (aligned : va % PGSIZE = 0) (word : va < WORD)
    (granted : va < MAXVA → Granted (lay.trapSecStart / PGSIZE) lent k₀ va (PA2PTE pa ||| perm ||| PTE_V))
    (next : ∀ k' own', Enclosed P who lent k₀ own₀ k' own' → (k'.procs c).pagetable = r → Yields rest k' post) :
    Yields (do userVmMap env r va PGSIZE pa perm; modify fun k => k.setProc c fun p =>
      p.setRegion n region; rest) k post := by
  rw [← root]
  refine Ensures.bind (enclosed.mapPage member aligned word pa perm granted) ?_
  rintro _ k₁ ⟨own₁, enclosed₁, _, procs₁, _⟩
  refine Ensures.step (modify_apply _ _)
    (next _ own₁ (enclosed₁.setProc member fun _ => ⟨rfl, rfl, rfl, rfl, rfl⟩) ?_)
  rw [Kernel.setProc_procs_self, procs₁]
  exact root

/-- The last part of `alloc_process`. -/
theorem Enclosed.fixedMaps (enclosed : Enclosed P who lent k₀ own₀ k own) (member : c ∈ who) {tf r s : ℕ}
    (root : (k.procs c).pagetable = r) (frame : KERN_BASE ≤ tf * PGSIZE ∧ tf < 2 ^ 44) (stack : s ∈ lent) :
    Yields (fixedMaps env lay c r (tf * PGSIZE) (s * PGSIZE)) k fun i k' => i = c ∧
    ∃ own', Enclosed P who lent k₀ own₀ k' own' := by
  rw [Proofs.fixedMaps]
  refine enclosed.mapRegion member root (by decide) (by decide)
    (fun _ => granted_page (by decide) (by decide) (Or.inl stack)) fun k₁ own₁ enclosed₁ root₁ => ?_
  refine enclosed₁.mapRegion member root₁ (Nat.mul_mod_left _ _) (page_word frame.2)
    (fun high => granted_kernel (by decide) (by decide) frame.1 high) fun k₂ own₂ enclosed₂ root₂ => ?_
  have image : ∀ va, KERN_BASE ≤ va → va < MAXVA → Granted (lay.trapSecStart / PGSIZE) lent k₀ va
      (PA2PTE lay.trapSecStart ||| protToType true false true false ||| PTE_V) := fun va low high => by
    rw [← trapSec_page lay]
    exact granted_kernel (by decide) (by decide) low high
  refine enclosed₂.mapRegion member root₂ lay.aligned (trapSec_word lay)
    (image _ lay.image) fun k₃ own₃ enclosed₃ _ => ?_
  refine enclosed₃.stepProc member (fun _ => ⟨rfl, rfl, rfl, rfl, rfl⟩) fun k₄ enclosed₄ => ?_
  refine enclosed₄.stepProc member (fun _ => ⟨rfl, rfl, rfl, rfl, rfl⟩) fun k₅ enclosed₅ => ?_
  refine enclosed₅.stepProc member (fun _ => ⟨rfl, rfl, rfl, rfl, rfl⟩) fun k₆ enclosed₆ => ?_
  exact ⟨rfl, own₃, enclosed₆⟩

end

/-- What `alloc_process` does: it takes pages, and then works on the page table of the new process,
to which it lends the page `s` for the stack. -/
structure Born {lay : Layout} (P : UserPages env (lay.trapSecStart / PGSIZE)) (k : Kernel σ) (own : ℕ → Owner)
    (i s : ℕ) (k₁ : Kernel σ) (own₁ : ℕ → Owner) (k' : Kernel σ) (own' : ℕ → Owner) : Prop where
  found : freeProcess? k.procs = some i
  pages : ∃ tf r ks mi, Prepared P k i tf r ks s mi k₁ ∧ own₁ = Function.update own i (soleRoot r)
  forest : Forest k₁ own₁
  empty : ∀ va, pteOf k₁ i va = 0
  ptes : ∀ j, j ≠ i → HasSpace k j → ∀ va, pteOf k₁ j va = pteOf k j va
  enclosed : Enclosed P {i} {s} k₁ own₁ k' own'

/-- `alloc_process`. -/
theorem Forest.born {lay : Layout} {P : UserPages env (lay.trapSecStart / PGSIZE)} {k : Kernel σ}
    {own : ℕ → Owner} (forest : Forest k own) (ok : P.Ok k) :
    Yields (Model.allocProcess env lay) k fun i k' => ∃ s k₁ own₁ own', Born P k own i s k₁ own₁ k' own' := by
  refine allocProcess_prepared ok fun i tf r ks s mi k₁ found prepared => ?_
  obtain ⟨bound, -⟩ := freeProcess?_some found
  obtain ⟨forest₁, inside₁, empty, ptes⟩ :=
    prepared.taken.root forest (by simp) bound (by rw [prepared.status]; decide)
    prepared.pagetable prepared.blank
  have start : Enclosed P {i} {s} k₁ (Function.update own i (soleRoot r)) k₁
    (Function.update own i (soleRoot r)) := by
    refine .refl prepared.taken.ok forest₁ ?_ ?_
    · rintro _ rfl
      exact inside₁
    · rintro _ rfl va valid
      rw [empty, not_has_zero] at valid
      cases valid
  have frame := prepared.taken.physical tf (by simp)
  refine Ensures.mono (start.fixedMaps rfl prepared.pagetable ⟨frame.1, frame.2.1⟩ rfl) ?_
  rintro _ k' ⟨rfl, own', enclosed⟩
  exact ⟨s, k₁, _, own', found, ⟨tf, r, ks, mi, prepared, rfl⟩, forest₁, empty, ptes, enclosed⟩

end Pke.Proofs
