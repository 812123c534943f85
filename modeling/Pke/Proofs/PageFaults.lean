import Pke.Model.Sched
import Pke.Proofs.SharedFrames

/-! # Page faults of user programs

A store fault at a valid entry with `PTE_COW` is resolved in place if the frame has no other user,
and by a private copy otherwise; every other store fault ends in a panic. A load fault is reported
and nothing else: the process is resumed at the instruction that faults.
-/

namespace Pke.Proofs

open Pke.Lib Pke.Model

variable {σ : Type} {env : PageEnv σ}

/-- The page tables of `pids` are disjoint trees, named by `own`, and no entry maps a page of a table. -/
structure Trees (k : Kernel σ) (pids : Finset ℕ) (own : Owner) : Prop where
  tables : Tables k.mem own
  roots : ∀ pid ∈ pids, own (rootOf k pid) = some (rootOf k pid, [])
  distinct : ∀ pid ∈ pids, ∀ pid' ∈ pids, rootOf k pid = rootOf k pid' → pid = pid'
  leaves : ∀ pid ∈ pids, ∀ va, has (pteOf k pid va) PTE_V = true →
    own (frameOf (pteOf k pid va)) = none ∧ frameOf (pteOf k pid va) < 2 ^ 44

/-- The processes that have an address space. -/
def spaces (k : Kernel σ) : Finset ℕ := (Finset.range NPROC).filter (HasSpace k)

theorem mem_spaces {k : Kernel σ} {pid : ℕ} : pid ∈ spaces k ↔ HasSpace k pid := by
  rw [spaces, Finset.mem_filter, Finset.mem_range]
  exact ⟨And.right, fun inside => ⟨inside.1, inside⟩⟩

theorem Shape.trees {trapSec : ℕ} {k : Kernel σ} {own : Owner} (shape : Shape trapSec k own) :
    Trees k (spaces k) own where
  tables := shape.tables
  roots pid listed := shape.roots pid (mem_spaces.mp listed)
  distinct pid listed pid' listed' := shape.distinct pid pid' (mem_spaces.mp listed) (mem_spaces.mp listed')
  leaves pid listed := shape.leaves pid (mem_spaces.mp listed)

namespace Trees

variable {k : Kernel σ} {pids : Finset ℕ} {own : Owner} {va t f : ℕ}

/-- The leaf table of an address is a table, and it is none of the pages that hold data. -/
theorem leafTable_ne (trees : Trees k pids own) {pid : ℕ} (member : pid ∈ pids) (free : own f = none)
    (found : leafTable k.mem (rootOf k pid) va = some t) : t ≠ f := by
  intro same
  have named := trees.tables.leafTable_owner (trees.roots pid member) found
  rw [same, free] at named
  cases named

/-- Replacing a leaf entry changes the translation of one page of one process. -/
theorem setLeaf (trees : Trees k pids own) {pid : ℕ} (member : pid ∈ pids)
    (found : leafTable k.mem (rootOf k pid) va = some t) (pte : ℕ) : ∀ pid' ∈ pids,
    ∀ va', pteOf (k.setWord t (PX 0 va) pte) pid' va' = editPte (pteOf k) pid va pte pid' va' := by
  intro pid' member' va'
  exact pteOf_setLeaf trees.tables (trees.roots pid member) (trees.roots pid' member')
    (trees.distinct pid' member' pid member) found pte va'

/-- Filling a page that is no table keeps all translations. -/
theorem dataPte (trees : Trees k pids own) (free : own f = none) (words : ℕ → ℕ) {pid : ℕ}
    (member : pid ∈ pids) (va : ℕ) :
    pteOf (k.setPage f words) pid va = pteOf k pid va :=
  trees.tables.translate_data free words (trees.roots pid member)

private theorem dataTable (trees : Trees k pids own) (free : own f = none) (words : ℕ → ℕ) {pid : ℕ}
    (member : pid ∈ pids) (va : ℕ) :
    leafTable (k.setPage f words).mem (rootOf k pid) va = leafTable k.mem (rootOf k pid) va :=
  trees.tables.leafTable_congr (fun _ _ _ named _ => Tables.update_data free words named)
  (trees.roots pid member) va

theorem setData (trees : Trees k pids own) (free : own f = none) (words : ℕ → ℕ) :
    Trees (k.setPage f words) pids own where
  tables := trees.tables.congr fun _ _ _ named _ => Tables.update_data free words named
  roots := trees.roots
  distinct := trees.distinct
  leaves pid member va := by
    rw [trees.dataPte free words member va]
    exact trees.leaves pid member va

theorem took (trees : Trees k pids own) (pa : ℕ) (pool : σ) : Trees (k.took pa pool) pids own :=
  ⟨trees.tables, trees.roots, trees.distinct, trees.leaves⟩

theorem mono (trees : Trees k pids own) {some : Finset ℕ} (part : some ⊆ pids) : Trees k some own :=
  ⟨trees.tables, fun pid member => trees.roots pid (part member),
    fun pid member pid' member' => trees.distinct pid (part member) pid' (part member'),
    fun pid member => trees.leaves pid (part member)⟩

end Trees

/-- The entry of `stval` in the page table of the running process is a valid copy-on-write entry. -/
def CowEntry (k : Kernel σ) (stval : ℕ) : Prop :=
  has (pteOf k k.current stval) PTE_V = true ∧ has (pteOf k k.current stval) PTE_COW = true

section

variable {k : Kernel σ} {stval t : ℕ}

instance : Decidable (CowEntry k stval) := inferInstanceAs (Decidable (_ ∧ _))

/-- Without a valid copy-on-write entry a store fault ends in a panic or in the assertion of `page_walk`. -/
theorem storeFault_stops (env : PageEnv σ) (other : 0 < stval ∧ stval < MAXVA → ¬ CowEntry k stval) :
    ∃ e, handleUserPageFault env CAUSE_STORE_PAGE_FAULT stval k = .error e k := by
  rw [handleUserPageFault, if_pos rfl, bind_of_ok (get_apply k), bind_of_ok (get_apply k)]
  have walk := pageWalk_read env (k.procs k.current).pagetable stval k
  by_cases range : 0 < stval ∧ stval < MAXVA
  · rw [if_pos range] at walk
    cases found : leafTable k.mem (rootOf k k.current) stval with
    | none =>
      rw [show leafTable k.mem ((k.procs k.current).pagetable / PGSIZE) stval = none from found] at walk
      rw [bind_of_ok walk]
      exact ⟨_, rfl⟩
    | some t =>
      rw [show leafTable k.mem ((k.procs k.current).pagetable / PGSIZE) stval = some t from found] at walk
      have entry : pteAt k (t, PX 0 stval) = pteOf k k.current stval := leafTable_some found
      have test : ¬ (has (pteOf k k.current stval) PTE_V && has (pteOf k k.current stval) PTE_COW) = true :=
        fun both => other range (Bool.and_eq_true_iff.mp both)
      rw [bind_of_ok walk]
      simp only [Option.map_some, bind_apply, get_apply, entry, if_neg test]
      exact ⟨_, rfl⟩
  · rw [if_neg range] at walk
    rw [bind_of_error walk]
    exact ⟨_, rfl⟩

/-- The state after the faulting page was copied to page `f`. -/
def afterCopy (k : Kernel σ) (pool : σ) (stval t f : ℕ) : Kernel σ :=
  ((k.took (f * PGSIZE) pool).setPage f (k.mem (PTE2PA (pteOf k k.current stval) / PGSIZE))).setWord
  t (PX 0 stval)
    (copied (pteOf k k.current stval) f)

/-- A store fault at a valid copy-on-write entry of the leaf table `t`. -/
theorem storeFault_cow (range : 0 < stval ∧ stval < MAXVA)
    (found : leafTable k.mem (rootOf k k.current) stval = some t)
    (cow : CowEntry k stval) :
    (¬ env.refs (PTE2PA (pteOf k k.current stval)) k > 1 →
      handleUserPageFault env CAUSE_STORE_PAGE_FAULT stval k =
      .ok () (k.setWord t (PX 0 stval) (unshared (pteOf k k.current stval)))) ∧
    (env.refs (PTE2PA (pteOf k k.current stval)) k > 1 → ∀ e pool, env.alloc k = .error e pool →
      handleUserPageFault env CAUSE_STORE_PAGE_FAULT stval k = .error e { k with pool := pool }) ∧
    (env.refs (PTE2PA (pteOf k k.current stval)) k > 1 → ∀ pool, env.alloc k = .ok 0 pool →
      ∃ e, handleUserPageFault env CAUSE_STORE_PAGE_FAULT stval k = .error e (k.took 0 pool)) ∧
    (env.refs (PTE2PA (pteOf k k.current stval)) k > 1 → ∀ f pool, env.alloc k = .ok (f * PGSIZE) pool →
      f ≠ 0 → t ≠ f →
      handleUserPageFault env CAUSE_STORE_PAGE_FAULT stval k =
        env.pfree (PTE2PA (pteOf k k.current stval)) (afterCopy k pool stval t f)) := by
  have walk : pageWalk env (k.procs k.current).pagetable stval 0 false k = .ok (some (t, PX 0 stval)) k := by
    rw [pageWalk_read env (k.procs k.current).pagetable stval k, if_pos range,
      show leafTable k.mem ((k.procs k.current).pagetable / PGSIZE) stval = some t from found]
    rfl
  have entry : pteAt k (t, PX 0 stval) = pteOf k k.current stval := leafTable_some found
  have test : (has (pteOf k k.current stval) PTE_V && has (pteOf k k.current stval) PTE_COW) = true :=
    Bool.and_eq_true_iff.mpr cow
  have count : env.getPageRef (PTE2PA (pteOf k k.current stval)) k =
    .ok (env.refs (PTE2PA (pteOf k k.current stval)) k) k := rfl
  rw [handleUserPageFault, if_pos rfl, bind_of_ok (get_apply k), bind_of_ok (get_apply k), bind_of_ok walk]
  simp only [bind_of_ok (get_apply k), entry, if_pos test, bind_of_ok count]
  refine ⟨fun single => ?_, fun shared e pool call => ?_, fun shared pool call => ?_,
    fun shared f pool call nonzero apart => ?_⟩
  · rw [if_neg single]
    rfl
  · have stops : env.allocPage k = .error e { k with pool := pool } := by rw [PageEnv.allocPage, call]
    rw [if_pos shared, bind_of_error stops]
  · have take : env.allocPage k = .ok 0 (k.took 0 pool) := by rw [PageEnv.allocPage, call]
    rw [if_pos shared, bind_of_ok take, if_pos rfl]
    exact ⟨_, rfl⟩
  · have take : env.allocPage k = .ok (f * PGSIZE) (k.took (f * PGSIZE) pool) := by rw [PageEnv.allocPage, call]
    -- the new page is not the leaf table, so the copy leaves the entry as it was
    have kept : ∀ words, pteAt ((k.took (f * PGSIZE) pool).setPage f words) (t, PX 0 stval) =
        pteOf k k.current stval :=
      fun words => by
        have table : ((k.took (f * PGSIZE) pool).setPage f words).mem t = k.mem t :=
          Function.update_of_ne apart _ _
        rw [pteAt, table]
        exact leafTable_some found
    rw [if_pos shared, bind_of_ok take, if_neg (Nat.mul_ne_zero nonzero (by decide)),
      Nat.mul_div_cancel f (show 0 < PGSIZE by decide), PA2PTE_page]
    simp only [bind_apply, modify_apply, get_apply, setPte, kept]
    rfl

end

/-- After the copy the entry of the running process is the copied one, and the other entries are as before. -/
theorem Trees.afterCopy_pte {k : Kernel σ} {pids : Finset ℕ} {own : Owner} {stval t f : ℕ}
    (trees : Trees k pids own) (member : k.current ∈ pids)
    (found : leafTable k.mem (rootOf k k.current) stval = some t) (free : own f = none) :
    ∀ pool pa pool', ∀ pid ∈ pids, ∀ va, pteOf ((afterCopy k pool stval t f).gave pa pool') pid va =
      editPte (pteOf k) k.current stval (copied (pteOf k k.current stval) f) pid va := by
  intro pool pa pool' pid listed va
  have trees₀ := trees.took (f * PGSIZE) pool
  have trees₁ := trees₀.setData free (k.mem (PTE2PA (pteOf k k.current stval) / PGSIZE))
  have found₁ := (trees₀.dataTable free (k.mem (PTE2PA (pteOf k k.current stval) / PGSIZE)) member
    stval).trans found
  refine (trees₁.setLeaf member found₁ _ pid listed va).trans ?_
  rw [editPte, editPte, trees₀.dataPte free _ listed va]
  rfl

/-- The leaf entries of `pids` that `counted` selects and that map frame `f`, by process and page. -/
def mappings (k : Kernel σ) (pids : Finset ℕ) (counted : ℕ → Prop) [DecidablePred counted]
    (f : ℕ) : Finset (ℕ × ℕ) :=
  (pids ×ˢ Finset.range (2 ^ 27)).filter fun m =>
    has (pteOf k m.1 (m.2 * PGSIZE)) PTE_V = true ∧ counted (pteOf k m.1 (m.2 * PGSIZE)) ∧
      frameOf (pteOf k m.1 (m.2 * PGSIZE)) = f

section

variable {k : Kernel σ} {pids : Finset ℕ} {own : Owner} {counted : ℕ → Prop} [DecidablePred counted] {stval : ℕ}

private theorem mem_mappings {f pid va : ℕ} (member : pid ∈ pids) (valid : has (pteOf k pid va) PTE_V = true)
    (user : counted (pteOf k pid va)) (frame : frameOf (pteOf k pid va) = f) :
    (pid, pageOf va) ∈ mappings k pids counted f := by
  have page : pteOf k pid (pageOf va * PGSIZE) = pteOf k pid va := by
    apply pteOf_congr
    simp only [pageOf, PGSIZE]
    omega
  have small : pageOf va < 2 ^ 27 := Nat.mod_lt _ (by decide)
  simp only [mappings, Finset.mem_filter, Finset.mem_product, Finset.mem_range]
  rw [page]
  exact ⟨⟨member, small⟩, valid, user, frame⟩

/-- `alloc_page` returns a page that is neither mapped nor a page table, and `pfree(pa)` returns
afterwards. -/
def Renews (env : PageEnv σ) (k : Kernel σ) (pids : Finset ℕ) (own : Owner) (pa : ℕ) : Prop :=
  ∃ f pool, env.alloc k = .ok (f * PGSIZE) pool ∧ f ≠ 0 ∧ own f = none ∧
    (∀ pid ∈ pids, ∀ va, has (pteOf k pid va) PTE_V = true → frameOf (pteOf k pid va) ≠ f) ∧
    ∀ k' : Kernel σ, k'.pool = pool → k'.tp = k.tp → ∃ pool', env.free pa k' = .ok () pool'

/-- What a resolved store fault at `stval` has changed between `k` and `k'`. -/
structure StoreResolved (k : Kernel σ) (pids : Finset ℕ) (counted : ℕ → Prop) (stval : ℕ)
    (k' : Kernel σ) : Prop where
  procs : k'.procs = k.procs
  current : k'.current = k.current
  valid : has (pteOf k' k.current stval) PTE_V = true
  writable : has (pteOf k' k.current stval) PTE_W = true
  unmarked : has (pteOf k' k.current stval) PTE_COW = false
  flags : ∀ n < 10, 2 ^ n ≠ PTE_W → 2 ^ n ≠ PTE_COW →
    has (pteOf k' k.current stval) (2 ^ n) = has (pteOf k k.current stval) (2 ^ n)
  alone : ∀ pid ∈ pids, ∀ va, has (pteOf k' pid va) PTE_V = true → counted (pteOf k' pid va) →
    frameOf (pteOf k' pid va) = frameOf (pteOf k' k.current stval) → pid = k.current ∧ pageOf va = pageOf stval
  bytes : k'.mem (frameOf (pteOf k' k.current stval)) = k.mem (frameOf (pteOf k k.current stval))
  others : ∀ pid ∈ pids, ∀ va, ¬ (pid = k.current ∧ pageOf va = pageOf stval) →
    pteOf k' pid va = pteOf k pid va ∧
    (has (pteOf k pid va) PTE_V = true → k'.mem (frameOf (pteOf k pid va)) = k.mem (frameOf (pteOf k pid va)))

/-- The flags of the new entry; `bit` is what `has_unshared` and `has_copied` say. -/
private theorem flags_resolved {old new : ℕ}
    (bit : ∀ n < 10, has new (2 ^ n) = ((has old (2 ^ n) || decide (2 = n)) && decide (8 ≠ n))) :
    has new PTE_V = has old PTE_V ∧ has new PTE_W = true ∧ has new PTE_COW = false ∧
      ∀ n < 10, 2 ^ n ≠ PTE_W → 2 ^ n ≠ PTE_COW → has new (2 ^ n) = has old (2 ^ n) := by
  refine ⟨?_, ?_, ?_, fun n low first second => ?_⟩
  · exact (bit 0 (by decide)).trans (by simp [PTE_V])
  · exact (bit 2 (by decide)).trans (by simp)
  · exact (bit 8 (by decide)).trans (by simp)
  · rw [bit n low]
    have two : 2 ≠ n := fun same => first (by rw [← same]; rfl)
    have eight : 8 ≠ n := fun same => second (by rw [← same]; rfl)
    simp [two, eight]

/-- The only user of the page gets it back writable. -/
private theorem StoreResolved.of_alone (trees : Trees k pids own) (member : k.current ∈ pids) {t : ℕ}
    (found : leafTable k.mem (rootOf k k.current) stval = some t)
    (valid : has (pteOf k k.current stval) PTE_V = true)
    (user : counted (pteOf k k.current stval))
    (single : (mappings k pids counted (frameOf (pteOf k k.current stval))).card ≤ 1) :
    StoreResolved k pids counted stval (k.setWord t (PX 0 stval) (unshared (pteOf k k.current stval))) := by
  have ptes := trees.setLeaf member found (unshared (pteOf k k.current stval))
  have entry : pteOf (k.setWord t (PX 0 stval) (unshared (pteOf k k.current stval))) k.current stval =
      unshared (pteOf k k.current stval) := by
    rw [ptes _ member, editPte, if_pos ⟨rfl, rfl⟩]
  obtain ⟨validBit, writable, unmarked, flags⟩ :=
    flags_resolved fun n _ => has_unshared (pteOf k k.current stval) n
  have other : ∀ pid ∈ pids, ∀ va, ¬ (pid = k.current ∧ pageOf va = pageOf stval) →
      pteOf (k.setWord t (PX 0 stval) (unshared (pteOf k k.current stval))) pid va = pteOf k pid va := by
    intro pid listed va apart
    rw [ptes pid listed, editPte, if_neg apart]
  have data : ∀ pid ∈ pids, ∀ va, has (pteOf k pid va) PTE_V = true →
      (k.setWord t (PX 0 stval) (unshared (pteOf k k.current stval))).mem (frameOf (pteOf k pid va)) =
        k.mem (frameOf (pteOf k pid va)) := by
    intro pid listed va present
    exact Function.update_of_ne (trees.leafTable_ne member
      (trees.leaves pid listed va present).1 found).symm _ _
  constructor
  · rfl
  · rfl
  · rw [entry, validBit, valid]
  · rw [entry, writable]
  · rw [entry, unmarked]
  · intro n low first second
    rw [entry, flags n low first second]
  · intro pid listed va present chosen frame
    by_contra apart
    rw [other pid listed va apart] at present chosen frame
    rw [entry, frameOf_unshared] at frame
    -- both entries are counted for the frame
    have same := Finset.card_le_one.mp single _ (mem_mappings listed present chosen frame) _
      (mem_mappings member valid user rfl)
    exact apart (Prod.mk.inj same)
  · rw [entry, frameOf_unshared]
    exact data _ member stval valid
  · intro pid listed va apart
    exact ⟨other pid listed va apart, data pid listed va⟩

omit [DecidablePred counted] in
/-- One of several users of the page gets a copy. -/
private theorem StoreResolved.of_copy (trees : Trees k pids own) (member : k.current ∈ pids) {t f : ℕ}
    {pool pool' : σ} (found : leafTable k.mem (rootOf k k.current) stval = some t)
    (valid : has (pteOf k k.current stval) PTE_V = true)
    (free : own f = none)
    (unmapped : ∀ pid ∈ pids, ∀ va, has (pteOf k pid va) PTE_V = true → frameOf (pteOf k pid va) ≠ f) :
    StoreResolved k pids counted stval
      ((afterCopy k pool stval t f).gave (PTE2PA (pteOf k k.current stval)) pool') := by
  have small := (trees.leaves _ member stval valid).2
  have ptes := trees.afterCopy_pte member found free pool (PTE2PA (pteOf k k.current stval)) pool'
  have entry : pteOf ((afterCopy k pool stval t f).gave (PTE2PA (pteOf k k.current stval)) pool')
      k.current stval =
      copied (pteOf k k.current stval) f := (ptes _ member stval).trans (if_pos ⟨rfl, rfl⟩)
  have bits : ∀ n < 10, has (copied (pteOf k k.current stval) f) (2 ^ n) =
      ((has (pteOf k k.current stval) (2 ^ n) || decide (2 = n)) && decide (8 ≠ n)) := by
    intro n low
    rw [has_copied low]
    by_cases two : 2 = n
    · subst two
      simp
    · simp [two]
  obtain ⟨validBit, writable, unmarked, flags⟩ := flags_resolved bits
  have other : ∀ pid ∈ pids, ∀ va, ¬ (pid = k.current ∧ pageOf va = pageOf stval) →
      pteOf ((afterCopy k pool stval t f).gave (PTE2PA (pteOf k k.current stval)) pool') pid va =
      pteOf k pid va :=
    fun pid listed va apart => (ptes pid listed va).trans (if_neg apart)
  have apartTable : f ≠ t := (trees.leafTable_ne member free found).symm
  constructor
  · rfl
  · rfl
  · rw [entry, validBit, valid]
  · rw [entry, writable]
  · rw [entry, unmarked]
  · intro n low first second
    rw [entry, flags n low first second]
  · intro pid listed va present _ frame
    by_contra apart
    rw [other pid listed va apart] at present frame
    rw [entry, frameOf_copied] at frame
    exact unmapped pid listed va present frame
  · rw [entry, frameOf_copied, ← PTE2PA_page small]
    exact (Function.update_of_ne apartTable _ _).trans (Function.update_self ..)
  · intro pid listed va apart
    refine ⟨other pid listed va apart, fun present => ?_⟩
    have table := trees.leafTable_ne member (trees.leaves pid listed va present).1 found
    exact (Function.update_of_ne table.symm _ _).trans
      (Function.update_of_ne (unmapped pid listed va present) _ _)

/-- A store fault resolves a valid copy-on-write entry for the running process and nobody else
notices; at any other entry it does not return. -/
theorem storeFault_resolves (trees : Trees k pids own) (member : k.current ∈ pids)
    (range : 0 < stval ∧ stval < MAXVA) (user : CowEntry k stval → counted (pteOf k k.current stval))
    (counts : env.refs (PTE2PA (pteOf k k.current stval)) k =
      (mappings k pids counted (frameOf (pteOf k k.current stval))).card)
    (supply : env.refs (PTE2PA (pteOf k k.current stval)) k > 1 →
      Renews env k pids own (PTE2PA (pteOf k k.current stval))) :
    (CowEntry k stval → ∃ k', handleUserPageFault env CAUSE_STORE_PAGE_FAULT stval k = .ok () k' ∧
      StoreResolved k pids counted stval k') ∧
    (¬ CowEntry k stval → ∃ e, handleUserPageFault env CAUSE_STORE_PAGE_FAULT stval k = .error e k) := by
  refine ⟨fun cow => ?_, fun other => storeFault_stops env fun _ => other⟩
  have valid := cow.1
  cases found : leafTable k.mem (rootOf k k.current) stval with
  | none =>
    rw [leafTable_none found, not_has_zero] at valid
    cases valid
  | some t =>
    obtain ⟨alone, -, -, copy⟩ := @storeFault_cow _ env _ _ _ range found cow
    by_cases shared : env.refs (PTE2PA (pteOf k k.current stval)) k > 1
    · obtain ⟨f, pool, call, nonzero, free, unmapped, frees⟩ := supply shared
      obtain ⟨pool', release⟩ := frees (afterCopy k pool stval t f) rfl rfl
      have result : handleUserPageFault env CAUSE_STORE_PAGE_FAULT stval k =
          .ok () ((afterCopy k pool stval t f).gave (PTE2PA (pteOf k k.current stval)) pool') := by
        rw [copy shared f pool call nonzero (trees.leafTable_ne member free found), PageEnv.pfree, release]
      exact ⟨_, result, StoreResolved.of_copy trees member found valid free unmapped⟩
    · refine ⟨_, alone shared, StoreResolved.of_alone trees member found valid (user cow) ?_⟩
      exact counts ▸ Nat.not_lt.mp shared

end

/-- A page from an intact supply is not in use. -/
private theorem Space.renews {trapSec : ℕ} {S : Supply env trapSec} {k : Kernel σ} {own : Owner}
    (space : Space S k own) {pa page : ℕ} {pool : σ} (call : env.alloc k = .ok page pool)
    (frees : ∀ k' : Kernel σ, k'.pool = pool → k'.tp = k.tp → ∃ pool', env.free pa k' = .ok () pool') :
    Renews env k (spaces k) own pa := by
  obtain ⟨f, rfl, ram, _, fresh, _, unmapped, _⟩ := S.alloc space.ok space.kept call
  refine ⟨f, pool, call, ?_, ?_, ?_, frees⟩
  · rintro rfl
    exact ram_ne_zero ram (Nat.zero_mul _)
  · by_contra table
    exact fresh (space.reserved f table)
  · intro pid listed va valid same
    exact unmapped ⟨pid, mem_spaces.mp listed, va, valid, same⟩

private theorem userMappings_eq (k : Kernel σ) (f : ℕ) :
    userMappings k f = mappings k (spaces k) (fun pte => has pte PTE_U = true) f := by
  apply Finset.ext
  rintro ⟨pid, page⟩
  rw [userMappings, mappings, Finset.mem_filter, Finset.mem_filter, Finset.mem_product, Finset.mem_product,
    mem_spaces, Finset.mem_range]
  constructor
  · rintro ⟨⟨_, low⟩, inside, ⟨valid, user⟩, frame⟩
    exact ⟨⟨inside, low⟩, valid, user, frame⟩
  · rintro ⟨⟨inside, low⟩, valid, user, frame⟩
    exact ⟨⟨inside.1, low⟩, inside, ⟨valid, user⟩, frame⟩

/-- After a fork the parent stores to its stack and gets a copy of the page. -/
theorem storeFault_resolves_small : ∃ k, Run (Step counterEnv smallLayout) counterKernel startAndFork k ∧ ∃ k',
    handleUserPageFault counterEnv CAUSE_STORE_PAGE_FAULT 0x7fffe008 k = .ok () k' ∧
    StoreResolved k (spaces k) (fun pte => has pte PTE_U = true) 0x7fffe008 k' := by
  obtain ⟨k, run, check⟩ := @startAndFork_run (fun k => decide (HasSpace k k.current ∧ k.pool < 2 ^ 44 ∧
    CowEntry k 0x7fffe008 ∧ has (pteOf k k.current 0x7fffe008) PTE_U = true)) (by decide +kernel)
  obtain ⟨inside, stock, cow, user⟩ := of_decide_eq_true check
  obtain ⟨⟨own, good⟩, _⟩ := codeless_run (counterFrames _) counterEnv_counts
    (fun _ _ => rfl) counterKernel_ok run
  have small := (good.space.leaves _ inside _ cow.1).2
  have counts : counterEnv.refs (PTE2PA (pteOf k k.current 0x7fffe008)) k =
      (mappings k (spaces k) (fun pte => has pte PTE_U = true)
        (frameOf (pteOf k k.current 0x7fffe008))).card := by
    rw [PTE2PA_eq small, counterEnv_counts, userMappings_eq]
  have call : counterEnv.alloc k = .ok (k.pool * PGSIZE) (k.pool + 1) := if_pos stock
  have supply := @Space.renews _ _ _ _ _ _ good.space (PTE2PA (pteOf k k.current 0x7fffe008)) _ _ call fun k'
    _ _ => ⟨k'.pool, rfl⟩
  exact ⟨k, run.imp fun _ _ _ _ step => step.2,
    (storeFault_resolves good.space.trees (mem_spaces.mpr inside) (by decide) (fun _ => user) counts
    fun _ => supply).1 cow⟩

/-- The pages that `alloc_page` can return are not page tables. -/
def TakesFrames (env : PageEnv σ) (k : Kernel σ) (own : Owner) : Prop :=
  ∀ pa pool, env.alloc k = .ok pa pool → pa = 0 ∨ ∃ f, pa = f * PGSIZE ∧ own f = none

private theorem Space.takesFrames {trapSec : ℕ} {S : Supply env trapSec} {k : Kernel σ} {own : Owner}
    (space : Space S k own) :
    TakesFrames env k own := by
  intro pa pool call
  obtain ⟨f, rfl, _, _, fresh, _⟩ := S.alloc space.ok space.kept call
  refine Or.inr ⟨f, rfl, ?_⟩
  by_contra table
  exact fresh (space.reserved f table)

/-- A store fault that returns leaves a writable entry. -/
private theorem storeFault_writable {k k' : Kernel σ} {pids : Finset ℕ} {own : Owner} {stval : ℕ}
    (trees : Trees k pids own) (member : k.current ∈ pids) (frames : TakesFrames env k own)
    (call : handleUserPageFault env CAUSE_STORE_PAGE_FAULT stval k = .ok () k') :
    (0 < stval ∧ stval < MAXVA) ∧ CowEntry k stval ∧ k'.procs = k.procs ∧ k'.current = k.current ∧
      SameAccess (pteOf k k.current stval) (pteOf k' k.current stval) ∧
      has (pteOf k' k.current stval) PTE_W = true := by
  have cow : (0 < stval ∧ stval < MAXVA) ∧ CowEntry k stval := by
    by_contra other
    obtain ⟨e, stops⟩ := storeFault_stops env (not_and.mp other)
    rw [stops] at call
    cases call
  obtain ⟨range, cow⟩ := cow
  refine ⟨range, cow, ?_⟩
  cases found : leafTable k.mem (rootOf k k.current) stval with
  | none =>
    have valid := cow.1
    rw [leafTable_none found, not_has_zero] at valid
    cases valid
  | some t =>
    obtain ⟨alone, stops, empty, copy⟩ := @storeFault_cow _ env _ _ _ range found cow
    by_cases shared : env.refs (PTE2PA (pteOf k k.current stval)) k > 1
    · cases take : env.alloc k with
      | error e pool =>
        rw [stops shared e pool take] at call
        cases call
      | ok pa pool =>
        by_cases zero : pa = 0
        · obtain ⟨e, panics⟩ := empty shared pool (zero ▸ take)
          rw [panics] at call
          cases call
        · obtain ⟨f, rfl, free⟩ := (frames pa pool take).resolve_left zero
          have nonzero : f ≠ 0 := fun none => zero (by rw [none, Nat.zero_mul])
          rw [copy shared f pool take nonzero (trees.leafTable_ne member free found), PageEnv.pfree] at call
          split at call
          · obtain ⟨-, rfl⟩ := EStateM.Result.ok.inj call
            rw [trees.afterCopy_pte member found free _ _ _ _ member, editPte, if_pos ⟨rfl, rfl⟩]
            exact ⟨rfl, rfl, copied_access _ f, (@has_copied 2 (by decide) _ f).trans (by simp)⟩
          · cases call
    · rw [alone shared] at call
      obtain ⟨-, rfl⟩ := EStateM.Result.ok.inj call
      rw [trees.setLeaf member found _ _ member, editPte, if_pos ⟨rfl, rfl⟩]
      exact ⟨rfl, rfl, unshared_access _, (has_unshared _ 2).trans (by simp)⟩

/-- The page faults of user programs. -/
inductive PageFault where
  | store | load
deriving DecidableEq

namespace PageFault

def cause (stval : ℕ) : PageFault → Cause
  | .store => .storePageFault stval
  | .load => .loadPageFault stval

/-- The flag of an entry that permits the access. -/
def flag : PageFault → ℕ
  | .store => PTE_W
  | .load => PTE_R

end PageFault

/-- The page table of the running process permits the access at the Sv39 address `va`. -/
def Permits (k : Kernel σ) (fault : PageFault) (va : ℕ) : Prop :=
  (va < MAXVA ∨ WORD - MAXVA ≤ va ∧ va < WORD) ∧ UserLeaf (pteOf k k.current va) ∧
  has (pteOf k k.current va) fault.flag = true

/-- A fault that is handled resumes the process at the instruction, and its access is permitted now. -/
def MakesProgress (env : PageEnv σ) (lay : Layout) (k : Kernel σ) (regs : Regs) (sepc : ℕ) (fault : PageFault)
    (stval : ℕ) : Prop :=
  ∀ k', smodeTrap env lay regs sepc (fault.cause stval) k = .ok () k' →
    k'.current = k.current ∧ (k'.procs k'.current).frame.epc = sepc ∧ Permits k' fault stval

section

variable {lay : Layout} {k k' : Kernel σ} {own : Owner} {regs : Regs} {sepc stval : ℕ} {fault : PageFault}

/-- The running process goes on with the program counter that the trap saved. -/
private theorem resumed (call : smodeTrap env lay regs sepc (fault.cause stval) k = .ok () k') :
    ∃ k₁, smodeTrapHandler env lay (fault.cause stval) (k.entered regs sepc) = .ok () k₁ ∧ k'.mem = k₁.mem ∧
    k'.current = k₁.current ∧
      (k'.procs k'.current).frame.epc = (k₁.procs k₁.current).frame.epc ∧
      ∀ pid, (k'.procs pid).pagetable = (k₁.procs pid).pagetable := by
  have other : fault.cause stval ≠ .ecall := by cases fault <;> exact Cause.noConfusion
  rw [smodeTrap, bind_of_ok (modify_apply _ k), userTrap, bind_of_ok (get_apply _), if_neg fun ecall =>
    other ecall.1] at call
  obtain ⟨_, k₁, handled, resume⟩ := bind_eq_ok.mp call
  rw [bind_of_ok (get_apply k₁), switchTo, bind_of_ok (modify_apply _ k₁), modify_apply] at resume
  obtain ⟨-, rfl⟩ := EStateM.Result.ok.inj resume
  refine ⟨k₁, handled, rfl, rfl, ?_, fun pid => ?_⟩
  · change ((Kernel.setProc _ k₁.current _).procs k₁.current).frame.epc = _
    rw [Kernel.setProc_procs_self]
  · by_cases here : pid = k₁.current
    · subst here
      rw [Kernel.setProc_procs_self]
    · rw [Kernel.setProc_procs_of_ne _ _ _ here]

/-- Saving the registers changes no page table. -/
private theorem Trees.entered (trees : Trees k {k.current} own) (regs : Regs) (sepc : ℕ) :
    Trees (k.entered regs sepc) {k.current} own := by
  have quiet := (entered_saved k regs sepc).quiet
  have root : ∀ pid, rootOf (k.entered regs sepc) pid = rootOf k pid := fun pid => by
    rw [rootOf, (quiet.procs pid).pagetable, rootOf]
  refine ⟨trees.tables, fun pid listed => ?_, fun pid listed pid' listed' => ?_, fun pid listed va => ?_⟩
  · rw [root]
    exact trees.roots pid listed
  · rw [root, root]
    exact trees.distinct pid listed pid' listed'
  · rw [quiet.pteOf]
    exact trees.leaves pid listed va

/-- The trap of a page fault makes progress exactly for a store, and for a load that was permitted before. -/
theorem pageFault_progress (trees : Trees k {k.current} own)
    (user : has (pteOf k k.current stval) PTE_COW = true → has (pteOf k k.current stval) PTE_U = true)
    (frames : TakesFrames env (k.entered regs sepc) own) :
    MakesProgress env lay k regs sepc fault stval ↔ fault = .store ∨ Permits k fault stval := by
  have quiet := (entered_saved k regs sepc).quiet
  have saved : ((k.entered regs sepc).procs k.current).frame.epc = sepc := by
    simp only [Kernel.entered, Kernel.setFrame, Kernel.setProc_procs_self]
  cases fault with
  | store =>
    refine ⟨fun _ => Or.inl rfl, fun _ k' call => ?_⟩
    obtain ⟨k₁, handled, mem, current, epc, pagetable⟩ := resumed call
    obtain ⟨range, cow, procs, running, same, writable⟩ :=
      storeFault_writable (trees.entered regs sepc) (Finset.mem_singleton_self _) frames handled
    have pte : ∀ va, pteOf k' k'.current va = pteOf k₁ k.current va := by
      intro va
      rw [pteOf, rootOf, mem, pagetable, current, running]
      rfl
    refine ⟨current.trans running, ?_, Or.inl range.2, ?_, ?_⟩
    · rw [epc, procs, running]
      exact saved
    · have marked := user (quiet.pteOf k.current stval ▸ cow.2)
      rw [pte]
      refine same.userLeaf.mpr ⟨cow.1, ?_⟩
      rw [show pteOf (k.entered regs sepc) (k.entered regs sepc).current stval = pteOf k k.current stval
        from quiet.pteOf _ _]
      exact marked
    · rw [pte]
      exact writable
  | load =>
    -- the handler prints a message and returns, so the page table is the one that did not permit the access
    have same : ∀ k', smodeTrap env lay regs sepc (PageFault.load.cause stval) k = .ok () k' →
        k'.current = k.current ∧ (k'.procs k'.current).frame.epc = sepc ∧
        ∀ va, pteOf k' k'.current va = pteOf k k.current va := by
      intro k' call
      obtain ⟨k₁, handled, mem, current, epc, pagetable⟩ := resumed call
      obtain ⟨-, rfl⟩ := EStateM.Result.ok.inj handled
      refine ⟨current, epc.trans saved, fun va => ?_⟩
      rw [← quiet.pteOf k.current va, pteOf, rootOf, mem, pagetable, current]
      rfl
    have permits : ∀ k', smodeTrap env lay regs sepc (PageFault.load.cause stval) k = .ok () k' →
        (Permits k' .load stval ↔ Permits k .load stval) := by
      intro k' call
      rw [Permits, Permits, (same k' call).2.2]
    constructor
    · intro progress
      obtain ⟨k', call⟩ : ∃ k', smodeTrap env lay regs sepc (PageFault.load.cause stval) k =
        .ok () k' := ⟨_, rfl⟩
      exact Or.inr ((permits k' call).mp (progress k' call).2.2)
    · rintro (impossible | permitted)
      · cases impossible
      · intro k' call
        exact ⟨(same k' call).1, (same k' call).2.1, (permits k' call).mpr permitted⟩

end

/-- The fault of a store to the stack after a fork makes progress. -/
theorem pageFault_progress_small : ∃ k, Run (Step counterEnv smallLayout) counterKernel startAndFork k ∧
    CowEntry k 0x7fffe008 ∧ MakesProgress counterEnv smallLayout k (fun _ => 0) 0x10000 .store 0x7fffe008 := by
  obtain ⟨k, run, check⟩ := @startAndFork_run (fun k => decide (HasSpace k k.current ∧ CowEntry k 0x7fffe008 ∧
    has (pteOf k k.current 0x7fffe008) PTE_U = true)) (by decide +kernel)
  obtain ⟨inside, cow, user⟩ := of_decide_eq_true check
  obtain ⟨⟨own, good⟩, _⟩ := codeless_run (counterFrames _) counterEnv_counts
    (fun _ _ => rfl) counterKernel_ok run
  have entered : Good (counterFrames (smallLayout.trapSecStart / PGSIZE)).toSupply
      (k.entered (fun _ => 0) 0x10000) own :=
    (entered_saved k _ _).quiet.good good ((counterFrames _).anyHart rfl rfl good.space.ok)
  have trees := good.space.trees.mono (Finset.singleton_subset_iff.mpr (mem_spaces.mpr inside))
  exact ⟨k, run.imp fun _ _ _ _ step => step.2, cow,
    (pageFault_progress trees (fun _ => user) entered.space.takesFrames).mpr (Or.inl rfl)⟩

/-- A load from an address that is not mapped: the handler returns, and the load faults again. -/
theorem loadFault_resumes : ∃ k k', Run (Step counterEnv smallLayout) counterKernel smallStart k ∧
    pteOf k k.current 0x1000 = 0 ∧
    smodeTrap counterEnv smallLayout (fun _ => 0) 0x10000 (.loadPageFault 0x1000) k = .ok () k' ∧
    (k'.procs k'.current).frame.epc = 0x10000 ∧ pteOf k' k'.current 0x1000 = 0 ∧
    ¬ MakesProgress counterEnv smallLayout k (fun _ => 0) 0x10000 .load 0x1000 := by
  have checked : (execute counterEnv smallLayout smallStart counterKernel).any
      (fun k => decide (pteOf k k.current 0x1000 = 0) &&
      returned (fun _ k' => decide ((k'.procs k'.current).frame.epc = 0x10000 ∧ pteOf k' k'.current 0x1000 = 0))
        (smodeTrap counterEnv smallLayout (fun _ => 0) 0x10000 (.loadPageFault 0x1000) k)) =
        true := by decide +kernel
  obtain ⟨k, run, check⟩ := run_of_check checked
  obtain ⟨unmapped, ok⟩ := Bool.and_eq_true_iff.mp check
  obtain ⟨_, k', call, passed⟩ := returned_eq_true ok
  obtain ⟨epc, still⟩ := of_decide_eq_true passed
  refine ⟨k, k', run, of_decide_eq_true unmapped, call, epc, still, fun progress => ?_⟩
  obtain ⟨_, _, _, ⟨valid, _⟩, _⟩ := progress k' call
  rw [still, not_has_zero] at valid
  cases valid

end Pke.Proofs
