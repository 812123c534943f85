import Pke.Proofs.ProcessCalls

/-! # `do_fork`

The loop of `do_fork` shares the pages of the stack and heap regions copy-on-write and maps the pages of
code regions read-only. The leaf entries of parent and child after the loop are given as functions of the
entries before it, by the set of shared pages and the set of code pages.
-/

namespace Pke.Proofs

open Pke.Lib Pke.Model

variable {σ : Type} {env : PageEnv σ} {trapSec : ℕ} {S : Supply env trapSec}

/-- The entry under which a stack or heap page is shared. -/
def shared (pte : ℕ) : ℕ := if has pte PTE_W = true then clear pte PTE_W ||| PTE_COW else pte

/-- The entry under which a child maps a code page of its parent. -/
def codeEntry (pte : ℕ) : ℕ := frameOf pte * 2 ^ 10 ||| protToType true false true true ||| PTE_V

theorem frameOf_shared (pte : ℕ) : frameOf (shared pte) = frameOf pte := by
  rw [shared]
  split_ifs
  · exact (frameOf_or_flag _ (m := 8) (by decide)).trans (frameOf_clear _ (m := 2) (by decide))
  · rfl

theorem shared_access (pte : ℕ) : SameAccess pte (shared pte) := by
  have bit : ∀ n, n ≠ 2 → n ≠ 8 → has (shared pte) (2 ^ n) = has pte (2 ^ n) := fun n first second => by
    rw [shared]
    split_ifs
    · rw [show PTE_COW = 2 ^ 8 from rfl, show PTE_W = 2 ^ 2 from rfl, has_or, has_clear, has_two_pow]
      simp [Ne.symm first, Ne.symm second]
    · rfl
  exact ⟨bit 0 (by decide) (by decide), bit 4 (by decide) (by decide), bit 1 (by decide) (by decide)⟩

/-- A shared page is not writable. -/
theorem shared_readOnly (pte : ℕ) : has (shared pte) PTE_W = false := by
  rw [shared]
  split_ifs with writable
  · rw [show PTE_COW = 2 ^ 8 from rfl, show PTE_W = 2 ^ 2 from rfl, has_or, has_clear, has_two_pow]
    simp
  · simpa using writable

private theorem shared_shared (pte : ℕ) : shared (shared pte) = shared pte := by
  conv_lhs => rw [shared, if_neg (by rw [shared_readOnly]; decide)]

/-- The effect of `do_fork` on one page of a stack or heap region. -/
structure PageShared (S : Supply env trapSec) (k : Kernel σ) (own : Owner) (parent child va : ℕ)
    (k' : Kernel σ) (own' : Owner) :
    Prop where
  only : Only S (fun pid => pid = parent ∨ pid = child) k own k' own'
  procs : k'.procs = k.procs
  skipped : has (pteOf k parent va) PTE_V = false → pteOf k' parent = pteOf k parent ∧
    pteOf k' child = pteOf k child
  parentPtes : has (pteOf k parent va) PTE_V = true → ∀ va', pteOf k' parent va' =
    if pageOf va' = pageOf va then shared (pteOf k parent va) else pteOf k parent va'
  childPtes : has (pteOf k parent va) PTE_V = true → ∀ va', pteOf k' child va' =
    if pageOf va' = pageOf va then shared (pteOf k parent va) else pteOf k child va'

section

variable {k : Kernel σ} {own : Owner} {parent child va : ℕ}

/-- The second half of sharing a page: the child gets the entry that the slot of the parent holds. -/
private theorem Space.shareTail (space : Space S k own) (insideC : HasSpace k child) {t pte : ℕ} {p : List ℕ}
    (named : own t = some (rootOf k parent, p)) (entry : k.mem t (PX 0 va) = pte) (valid : has pte PTE_V = true)
    (data : own (frameOf pte) = none) (small : frameOf pte < 2 ^ 44)
    (source : frameOf pte ∈ S.Kept k.trace ∨ frameOf pte = trapSec) (mapped : Mapped k (frameOf pte)) :
    Yields (do
      env.getPage (PTE2PA ((← get).mem t (PX 0 va)))
      match ← pageWalk env ((← get).procs child).pagetable va 0 true with
      | none => throw (.panic "do_fork: page_walk failed to allocate leaf page table.\n")
      | some childSlot => setPte childSlot ((← get).mem t (PX 0 va))) k fun _ k' => ∃ own',
        Only S (· = child) k own k' own' ∧ k'.procs = k.procs ∧
        ∀ va', pteOf k' child va' = if pageOf va' = pageOf va then pte else pteOf k child va' := by
  refine Ensures.step (get_apply k) ?_
  refine Ensures.step (modify_apply _ _) ?_
  refine Ensures.step (get_apply _) ?_
  have space₁ := space.share (PTE2PA (k.mem t (PX 0 va)))
  refine Ensures.bind (space₁.walkAlloc (trivialStops env) (space₁.roots child insideC) fun _ _ => trivial) ?_
  rintro _ k₂ ⟨_, _, own₂, t', rfl, grown, found⟩
  refine Ensures.step (get_apply k₂) ?_
  have kept : k₂.mem t (PX 0 va) = pte := by
    rw [← entry]
    refine grown.entries t (by rw [named]; simp) _ ?_
    change k.mem t (PX 0 va) ≠ 0
    rw [entry]
    exact Tables.valid_ne_zero valid
  rw [kept]
  have edited := grown.setLeaf space₁ insideC found
    (fun _ => ⟨grown.data _ data (Or.inr mapped), small⟩) fun _ => source
  have only := edited.only
  refine ⟨own₂, ⟨only.space, fun f held => only.held f ⟨held.free, held.taken, held.kept, held.small⟩,
    only.taken, only.procs, only.ptes, only.current, only.tp⟩, edited.procs, fun va' => ?_⟩
  have stored := edited.ptes child insideC va'
  simp only [editPte, true_and] at stored
  exact stored

/-- One page of a stack or heap region: nothing happens if the parent does not map it, and otherwise
the parent's entry is made read-only first. -/
theorem forkSharePage_cases {post : Unit → Kernel σ → Prop}
    (skipped : has (pteOf k parent va) PTE_V = false → post () k)
    (shares : ∀ t, leafTable k.mem (rootOf k parent) va = some t →
      has (pteOf k parent va) PTE_V = true → Yields (do
      env.getPage (PTE2PA ((← get).mem t (PX 0 va)))
      match ← pageWalk env ((← get).procs child).pagetable va 0 true with
      | none => throw (.panic "do_fork: page_walk failed to allocate leaf page table.\n")
      | some childSlot => setPte childSlot ((← get).mem t (PX 0 va)))
      (k.setWord t (PX 0 va) (shared (pteOf k parent va))) post) :
    Yields (forkSharePage env parent child va) k post := by
  rw [Model.forkSharePage]
  refine Ensures.step (get_apply k) ?_
  have walk := pageWalk_read env (k.procs parent).pagetable va k
  by_cases range : 0 < va ∧ va < MAXVA
  · rw [if_pos range] at walk
    refine Ensures.step walk ?_
    cases found : leafTable k.mem (rootOf k parent) va with
    | none =>
      rw [show leafTable k.mem ((k.procs parent).pagetable / PGSIZE) va = none from found]
      trivial
    | some t =>
      rw [show leafTable k.mem ((k.procs parent).pagetable / PGSIZE) va = some t from found]
      simp only [Option.map_some]
      refine Ensures.step (get_apply k) ?_
      simp only [pteAt, leafTable_some found]
      by_cases valid : has (pteOf k parent va) PTE_V = true
      · rw [if_pos valid]
        have both := shares t found valid
        by_cases writable : has (pteOf k parent va) PTE_W = true
        · rw [if_pos writable]
          have entryIs : clear (pteOf k parent va) PTE_W ||| PTE_COW = shared (pteOf k parent va) := by
            rw [shared, if_pos writable]
          rw [entryIs]
          exact Ensures.step (modify_apply _ _) both
        · rw [if_neg writable]
          have same : k.setWord t (PX 0 va) (shared (pteOf k parent va)) = k := by
            rw [shared, if_neg writable, ← leafTable_some found, Kernel.setWord, Function.update_eq_self,
              Function.update_eq_self]
          rw [same] at both
          exact both
      · rw [if_neg valid]
        exact skipped (Bool.eq_false_of_not_eq_true valid)
  · rw [if_neg range] at walk
    exact Ensures.fails walk trivial

/-- One page of a stack or heap region, over intact address spaces. -/
theorem Space.forkSharePage (space : Space S k own) (insideP : HasSpace k parent) (insideC : HasSpace k child)
    (apart : parent ≠ child) :
    Yields (forkSharePage env parent child va) k fun _ k' => ∃ own',
    PageShared S k own parent child va k' own' := by
  refine forkSharePage_cases (fun invalid => ?_) fun t found valid => ?_
  · have isValid : ∀ {goal : Prop}, has (pteOf k parent va) PTE_V = true → goal := fun valid => by
      rw [invalid] at valid
      cases valid
    exact ⟨own, .refl space, rfl, fun _ => ⟨rfl, rfl⟩, isValid, isValid⟩
  · obtain ⟨data, small⟩ := space.leaves parent insideP va valid
    have source := space.kept _ ⟨parent, insideP, va, valid, rfl⟩
    have validS : has (shared (pteOf k parent va)) PTE_V = true := (shared_access _).1.trans valid
    rw [← frameOf_shared] at data small source
    obtain ⟨space₁, ptes₁⟩ := space.setLeaf insideP found (fun _ => ⟨data, small⟩) fun _ => source
    have only₁ : Only S (· = parent) k own (k.setWord t (PX 0 va) (shared (pteOf k parent va))) own :=
      ⟨space₁, fun f held => ⟨held.free, held.taken, held.kept, held.small⟩, fun _ taken => taken,
        fun _ _ => rfl, fun pid other inside va' => by
          rw [ptes₁ pid inside, editPte, if_neg fun here => other here.1], rfl, rfl⟩
    have entry : (k.setWord t (PX 0 va) (shared (pteOf k parent va))).mem t (PX 0 va) =
      shared (pteOf k parent va) := by
      simp [Kernel.setWord]
    have now : pteOf (k.setWord t (PX 0 va) (shared (pteOf k parent va))) parent va =
      shared (pteOf k parent va) := by
      rw [ptes₁ parent insideP, editPte, if_pos ⟨rfl, rfl⟩]
    refine Ensures.mono (space₁.shareTail insideC
      (space.tables.leafTable_owner (space.roots parent insideP) found)
      entry validS data small source ⟨parent, insideP, va, now.symm ▸ validS, congrArg frameOf now⟩) ?_
    rintro _ k' ⟨own', only₂, procs₂, ptes₂⟩
    refine ⟨own', (only₁.mono fun _ => Or.inl).trans (only₂.mono fun _ => Or.inr), procs₂, fun invalid => ?_,
      fun _ va' => ?_, fun _ va' => ?_⟩
    · rw [valid] at invalid
      exact absurd invalid (by decide)
    · rw [only₂.ptes parent apart insideP, ptes₁ parent insideP, editPte]
      simp only [true_and]
    · rw [ptes₂, ptes₁ child insideC, editPte, if_neg (c := child = parent ∧ _) fun here => apart here.1.symm]

/-- `lookup_pa` of a readable page. -/
theorem lookupPa_readable (leaf : has (pteOf k parent va) PTE_V = true)
    (readable : has (pteOf k parent va) PTE_R = true) (low : 0 < va) (high : va < MAXVA) :
    lookupPa env (k.procs parent).pagetable va k = .ok (PTE2PA (pteOf k parent va)) k := by
  have walk := pageWalk_read env (k.procs parent).pagetable va k
  rw [if_pos ⟨low, high⟩] at walk
  rw [lookupPa, if_neg (Nat.not_le.mpr high), bind_of_ok walk]
  cases found : leafTable k.mem (rootOf k parent) va with
  | none =>
    rw [leafTable_none found, not_has_zero] at leaf
    exact absurd leaf (by decide)
  | some t =>
    rw [show leafTable k.mem ((k.procs parent).pagetable / PGSIZE) va = some t from found]
    have entry : pteAt k (t, PX 0 va) = pteOf k parent va := leafTable_some found
    simp [bind_apply, entry, leaf, readable]

/-- One page of a code region. -/
theorem Space.forkCodePage (space : Space S k own) (insideP : HasSpace k parent) (insideC : HasSpace k child)
    (leaf : has (pteOf k parent va) PTE_V = true) (readable : has (pteOf k parent va) PTE_R = true)
    (aligned : va % PGSIZE = 0) (low : 0 < va) (high : va < MAXVA) :
    Yields (forkCodePage env parent child va) k fun _ k' => ∃ own', Only S (· = child) k own k' own' ∧
    k'.procs = k.procs ∧
      has (pteOf k child va) PTE_V = false ∧
      ∀ va', pteOf k' child va' = if pageOf va' = pageOf va then codeEntry (pteOf k parent va)
      else pteOf k child va' := by
  obtain ⟨data, small⟩ := space.leaves parent insideP va leaf
  have mapped : Mapped k (frameOf (pteOf k parent va)) := ⟨parent, insideP, va, leaf, rfl⟩
  rw [Model.forkCodePage]
  refine Ensures.step (get_apply k) ?_
  refine Ensures.step (lookupPa_readable leaf readable low high) ?_
  refine Ensures.step (get_apply k) ?_
  rw [PTE2PA_eq small]
  refine Ensures.mono (space.mapInto insideC aligned (high.trans (by decide)) (by decide)
    ⟨data, small, space.kept _ mapped, Or.inr (Or.inr mapped)⟩) ?_
  rintro _ k' ⟨_, _, vacant, own', only, procs, ptes⟩
  exact ⟨own', only, procs, vacant, ptes⟩

end

/-- The entry of a parent whose pages in `sh` have been shared. -/
def parentEntry (sh : List ℕ) (entry : ℕ → ℕ) (va : ℕ) : ℕ :=
  if pageOf va ∈ sh ∧ has (entry va) PTE_V = true then shared (entry va) else entry va

/-- The entry of a child with which the pages in `sh` have been shared and for which the pages in
`code` have been mapped, where `entry` are the entries of the parent and `entryC` those of the child
before. -/
def childEntry (sh code : List ℕ) (entry entryC : ℕ → ℕ) (va : ℕ) : ℕ :=
  if pageOf va ∈ code then codeEntry (entry va)
  else if pageOf va ∈ sh ∧ has (entry va) PTE_V = true then shared (entry va)
  else entryC va

/-- The state of the loop of `do_fork` over the regions, which started in `k₁`, when the pages in
`sh` have been shared and the pages in `code` have been mapped as code. -/
structure Forking (S : Supply env trapSec) (k₁ : Kernel σ) (own₁ : Owner) (parent child : ℕ) (sh code : List ℕ)
    (k : Kernel σ) (own : Owner) : Prop where
  only : Only S (fun pid => pid = parent ∨ pid = child) k₁ own₁ k own
  parentProc : k.procs parent = k₁.procs parent
  childTable : (k.procs child).pagetable = (k₁.procs child).pagetable ∧
    (k.procs child).status = (k₁.procs child).status
  parentPtes : ∀ va, pteOf k parent va = parentEntry sh (pteOf k₁ parent) va
  childPtes : ∀ va, pteOf k child va = childEntry sh code (pteOf k₁ parent) (pteOf k₁ child) va

namespace Forking

variable {k₁ k : Kernel σ} {own₁ own : Owner} {parent child : ℕ} {sh code : List ℕ}

private theorem insideParent (forking : Forking S k₁ own₁ parent child sh code k own)
    (inside : HasSpace k₁ parent) :
    HasSpace k parent := by
  rwa [HasSpace, forking.parentProc]

private theorem insideChild (forking : Forking S k₁ own₁ parent child sh code k own)
    (inside : HasSpace k₁ child) :
    HasSpace k child := by
  rwa [HasSpace, forking.childTable.1, forking.childTable.2]

/-- The parent keeps frames and access; only write access may be gone. -/
theorem parentAccess (forking : Forking S k₁ own₁ parent child sh code k own) (va : ℕ) :
    SameAccess (pteOf k₁ parent va) (pteOf k parent va) ∧
    frameOf (pteOf k parent va) = frameOf (pteOf k₁ parent va) ∧
      shared (pteOf k parent va) = shared (pteOf k₁ parent va) := by
  rw [forking.parentPtes, parentEntry]
  split_ifs
  · exact ⟨shared_access _, frameOf_shared _, shared_shared _⟩
  · exact ⟨.refl _, rfl, rfl⟩

theorem start (space : Space S k₁ own₁) : Forking S k₁ own₁ parent child [] [] k₁ own₁ := by
  refine ⟨.refl space, rfl, ⟨rfl, rfl⟩, fun va => ?_, fun va => ?_⟩
  · simp [parentEntry]
  · simp [childEntry]

/-- A change of the fields of the child. -/
theorem setChild (forking : Forking S k₁ own₁ parent child sh code k own) (apart : parent ≠ child)
    {change : Process → Process} (table : (change (k.procs child)).pagetable = (k.procs child).pagetable)
    (status : (change (k.procs child)).status = (k.procs child).status) :
    Forking S k₁ own₁ parent child sh code (k.setProc child change) own := by
  have ptes := pteOf_setProc table
  refine ⟨forking.only.trans ((forking.only.space.onlySetProc table fun zombie => status.trans zombie).mono
    fun _ => Or.inr), ?_, ?_, fun va => ?_, fun va => ?_⟩
  · rw [Kernel.setProc_procs_of_ne _ _ _ apart]
    exact forking.parentProc
  · rw [Kernel.setProc_procs_self, table, status]
    exact forking.childTable
  · rw [ptes]
    exact forking.parentPtes va
  · rw [ptes]
    exact forking.childPtes va

/-- Sharing one more page, before any code page is mapped. -/
theorem share (forking : Forking S k₁ own₁ parent child sh [] k own) (insideP : HasSpace k₁ parent)
    (insideC : HasSpace k₁ child) (apart : parent ≠ child) (a : ℕ) :
    Yields (forkSharePage env parent child a) k fun _ k' => ∃ own',
      Forking S k₁ own₁ parent child (pageOf a :: sh) [] k' own' ∧ k'.procs = k.procs := by
  refine Ensures.mono (forking.only.space.forkSharePage (forking.insideParent insideP)
    (forking.insideChild insideC) apart) ?_
  rintro _ k' ⟨own', page⟩
  obtain ⟨access, _, twice⟩ := forking.parentAccess a
  have here : ∀ {va}, pageOf va = pageOf a → pteOf k₁ parent va = pteOf k₁ parent a :=
    fun same => pteOf_congr same
  refine ⟨own', ⟨forking.only.trans page.only, ?_, ?_, fun va => ?_, fun va => ?_⟩, page.procs⟩
  · rw [page.procs]
    exact forking.parentProc
  · rw [page.procs]
    exact forking.childTable
  · cases valid : has (pteOf k₁ parent a) PTE_V with
    | false =>
      rw [(page.skipped (access.1.trans valid)).1, forking.parentPtes]
      by_cases same : pageOf va = pageOf a
      · simp [parentEntry, here same, valid]
      · simp [parentEntry, same]
    | true =>
      rw [page.parentPtes (access.1.trans valid), forking.parentPtes va, twice]
      by_cases same : pageOf va = pageOf a
      · simp [parentEntry, same, here same, valid]
      · simp [parentEntry, same]
  · cases valid : has (pteOf k₁ parent a) PTE_V with
    | false =>
      rw [(page.skipped (access.1.trans valid)).2, forking.childPtes]
      by_cases same : pageOf va = pageOf a
      · simp [childEntry, here same, valid]
      · simp [childEntry, same]
    | true =>
      rw [page.childPtes (access.1.trans valid), forking.childPtes va, twice]
      by_cases same : pageOf va = pageOf a
      · simp [childEntry, same, here same, valid]
      · simp [childEntry, same]

/-- Mapping one more code page. -/
private theorem mapCode (forking : Forking S k₁ own₁ parent child sh code k own) (insideP : HasSpace k₁ parent)
    (insideC : HasSpace k₁ child) (apart : parent ≠ child) {a : ℕ}
    (leaf : has (pteOf k₁ parent a) PTE_V = true) (readable : has (pteOf k₁ parent a) PTE_R = true)
    (aligned : a % PGSIZE = 0) (low : 0 < a) (high : a < MAXVA) :
    Yields (forkCodePage env parent child a) k fun _ k' => ∃ own',
      Forking S k₁ own₁ parent child sh (pageOf a :: code) k' own' ∧ k'.procs = k.procs ∧ pageOf a ∉ code := by
  obtain ⟨access, frame, _⟩ := forking.parentAccess a
  have here : ∀ {va}, pageOf va = pageOf a → pteOf k₁ parent va = pteOf k₁ parent a :=
    fun same => pteOf_congr same
  refine Ensures.mono (forking.only.space.forkCodePage (forking.insideParent insideP)
    (forking.insideChild insideC)
    (access.1.trans leaf) (access.2.2.trans readable) aligned low high) ?_
  rintro _ k' ⟨own', only, procs, vacant, ptes⟩
  refine ⟨own', ⟨forking.only.trans (only.mono fun _ => Or.inr), ?_, ?_, fun va => ?_, fun va => ?_⟩, procs,
    fun double => ?_⟩
  · rw [procs]
    exact forking.parentProc
  · rw [procs]
    exact forking.childTable
  · rw [only.ptes parent apart (forking.insideParent insideP)]
    exact forking.parentPtes va
  · rw [ptes, forking.childPtes va]
    by_cases same : pageOf va = pageOf a
    · simp [childEntry, same, here same, codeEntry, frame]
    · simp [childEntry, same]
  · rw [forking.childPtes, childEntry, if_pos double] at vacant
    have valid : has (codeEntry (pteOf k₁ parent a)) PTE_V = true := has_valid_or _
    rw [valid] at vacant
    exact absurd vacant (by decide)

end Forking

/-- The pages of a region up to page `n`, the last first. -/
def regionPages (region : MappedRegion) (n : ℕ) : List ℕ :=
  ((List.range n).map fun j => pageOf (regionPage region j)).reverse

private theorem regionPages_succ (region : MappedRegion) (n : ℕ) :
    regionPages region (n + 1) = pageOf (regionPage region n) :: regionPages region n := by
  simp [regionPages, List.range_succ]

/-- The code regions among the first `n` loaded regions. -/
def codeRegions (p : Process) (n : ℕ) : List MappedRegion :=
  ((List.range n).map fun j => p.regions (4 + j)).filter fun region => region.segType = .CODE_SEGMENT

private theorem codeRegions_code {p : Process} {n : ℕ} (type : (p.regions (4 + n)).segType = .CODE_SEGMENT) :
    codeRegions p (n + 1) = codeRegions p n ++ [p.regions (4 + n)] := by
  simp [codeRegions, List.range_succ, type]

private theorem codeRegions_other {p : Process} {n : ℕ} (type : (p.regions (4 + n)).segType ≠ .CODE_SEGMENT) :
    codeRegions p (n + 1) = codeRegions p n := by
  simp [codeRegions, List.range_succ, type]

/-- The pages of code regions, the last first. -/
def codePages (code : List MappedRegion) : List ℕ := (code.map fun region => pageOf region.va).reverse

/-- A process with the fixed regions of `p`, followed by the given code regions. -/
def withCode (p : Process) (code : List MappedRegion) : Process :=
  { p with
    regions := fun i => if 4 ≤ i then (code[i - 4]?).getD (p.regions i) else p.regions i
    totalMappedRegion := 4 + code.length }

private theorem withCode_nil {p : Process} (total : p.totalMappedRegion = 4) : withCode p [] = p := by
  simp [withCode, ← total]

/-- Registering one more code region. -/
private theorem withCode_append (p : Process) (code : List MappedRegion) (region : MappedRegion) :
    { (withCode p code).setRegion (withCode p code).totalMappedRegion region with
      totalMappedRegion := (withCode p code).totalMappedRegion + 1 } = withCode p (code ++ [region]) := by
  have regions : Function.update (withCode p code).regions (4 + code.length) region =
    (withCode p (code ++ [region])).regions := by
    funext i
    by_cases here : i = 4 + code.length
    · subst here
      simp [withCode]
    · rw [Function.update_of_ne here]
      simp only [withCode]
      split_ifs with loaded
      · rcases Nat.lt_or_ge (i - 4) code.length with below | above
        · rw [List.getElem?_append_left below]
        · rw [List.getElem?_eq_none above,
            List.getElem?_eq_none (by rw [List.length_append, List.length_singleton]; omega)]
      · rfl
  have total : 4 + code.length + 1 = 4 + (code ++ [region]).length := by
    rw [List.length_append, List.length_singleton, Nat.add_assoc]
  rw [Process.setRegion, withCode, withCode, Process.mk.injEq]
  exact ⟨rfl, rfl, rfl, rfl, rfl, regions, total, rfl, rfl, rfl, rfl, rfl⟩

/-- The pages that `do_fork` shares: those of the stack and heap regions. -/
def cowPages (p : Process) : List ℕ := regionPages (p.regions 3) (p.regions 3).npages ++ [pageOf STACK_PAGE]

/-- The pages that the loop of `do_fork` has shared after `i` regions. -/
def sharedPages (p : Process) (i : ℕ) : List ℕ :=
  if 4 ≤ i then cowPages p else if 1 ≤ i then [pageOf STACK_PAGE] else []

/-- The process structure of a child, that was `c`, after `i` regions of the parent `p`. -/
def forkedChild (c p : Process) (i : ℕ) : Process :=
  withCode { c with frame := if 2 ≤ i then p.frame else c.frame, userHeap := if 4 ≤ i then p.userHeap
    else c.userHeap }
    (codeRegions p (i - 4))

theorem regionPage_zero {region : MappedRegion} (high : region.va < MAXVA) :
    regionPage region 0 = region.va := by
  rw [regionPage, Nat.zero_mul, Nat.zero_mod, Nat.add_zero, Nat.mod_eq_of_lt]
  simp only [MAXVA, WORD] at *
  omega

namespace Forking

variable {k₁ k : Kernel σ} {own₁ own : Owner} {parent child : ℕ} {sh code : List ℕ}

/-- Sharing the pages of a region. -/
theorem shareRegion (forking : Forking S k₁ own₁ parent child sh [] k own) (insideP : HasSpace k₁ parent)
    (insideC : HasSpace k₁ child) (apart : parent ≠ child) (region : MappedRegion) (n : ℕ) :
    Yields ((List.range n).forM fun j => forkSharePage env parent child (regionPage region j)) k fun _ k' =>
      ∃ own', Forking S k₁ own₁ parent child (regionPages region n ++ sh) [] k' own' ∧ k'.procs = k.procs := by
  apply Ensures.forM_range
  · exact ⟨own, forking, rfl⟩
  rintro i _ k' ⟨own', forking', procs⟩
  refine Ensures.mono (forking'.share insideP insideC apart (regionPage region i)) ?_
  rintro _ k'' ⟨own'', forking'', procs'⟩
  rw [← List.cons_append, ← regionPages_succ] at forking''
  exact ⟨own'', forking'', procs'.trans procs⟩

end Forking

theorem sharedPages_loaded (p : Process) (j : ℕ) :
    sharedPages p (4 + j) = cowPages p := by
  rw [sharedPages, if_pos (Nat.le_add_right 4 j)]

private theorem forkedChild_loaded (c p : Process) (j : ℕ) :
    forkedChild c p (4 + j) = withCode { c with frame := p.frame, userHeap := p.userHeap }
    (codeRegions p j) := by
  rw [forkedChild, if_pos (by omega), if_pos (Nat.le_add_right 4 j), Nat.add_sub_cancel_left]

namespace Forking

variable {k₁ k : Kernel σ} {own₁ own : Owner} {parent child : ℕ}

/-- Mapping the page of a code region. -/
private theorem mapCodeRegion {sh code : List ℕ} (forking : Forking S k₁ own₁ parent child sh code k own)
    (insideP : HasSpace k₁ parent) (insideC : HasSpace k₁ child) (apart : parent ≠ child) {h : HeapManager}
    {region : MappedRegion} (loaded : Loaded h (pteOf k₁ parent) region) :
    Yields ((List.range 1).forM fun n => forkCodePage env parent child (regionPage region n)) k fun _ k' =>
      ∃ own', Forking S k₁ own₁ parent child sh (pageOf region.va :: code) k' own' ∧
      k'.procs = k.procs := by
  obtain ⟨_, _, aligned, low, high, _, leaf, readable⟩ := loaded
  rw [forM_range_succ]
  refine Ensures.step rfl ?_
  rw [regionPage_zero high]
  refine Ensures.mono (forking.mapCode insideP insideC apart leaf.1 readable aligned low high) ?_
  rintro _ k' ⟨own', forking', procs', _⟩
  exact ⟨own', forking', procs'⟩

/-- One round of the loop of `do_fork` over the regions of the parent. -/
theorem forkRegion {i : ℕ}
    (forking : Forking S k₁ own₁ parent child (sharedPages (k₁.procs parent) i)
      (codePages (codeRegions (k₁.procs parent) (i - 4))) k own)
    (ok : ProcOk (k₁.procs parent) (pteOf k₁ parent)) (insideP : HasSpace k₁ parent)
    (insideC : HasSpace k₁ child) (apart : parent ≠ child) (below : i < (k₁.procs parent).totalMappedRegion)
    (fields : k.procs child = forkedChild (k₁.procs child) (k₁.procs parent) i) :
    Yields (forkRegion env parent child i) k fun _ k' => ∃ own', Forking S k₁ own₁ parent child
      (sharedPages (k₁.procs parent) (i + 1)) (codePages (codeRegions (k₁.procs parent) (i + 1 - 4))) k' own' ∧
      k'.procs child = forkedChild (k₁.procs child) (k₁.procs parent) (i + 1) := by
  rw [Model.forkRegion]
  refine Ensures.step (get_apply k) ?_
  rw [forking.parentProc]
  match i, below, forking, fields with
  | 0, _, forking, fields =>
    rw [ok.fixed.stack]
    refine Ensures.mono (forking.shareRegion insideP insideC apart _ 1) ?_
    rintro _ k' ⟨own', forking', procs'⟩
    refine ⟨own', forking', ?_⟩
    rw [procs', fields]
    rfl
  | 1, _, forking, fields =>
    simp only [ok.fixed.context.1]
    refine ⟨own, forking.setChild apart rfl rfl, ?_⟩
    rw [Kernel.setProc_procs_self, fields, forking.parentProc]
    rfl
  | 2, _, forking, fields =>
    simp only [ok.fixed.system.1]
    exact ⟨own, forking, fields⟩
  | 3, _, forking, fields =>
    simp only [ok.fixed.heap.1]
    refine Ensures.bind (forking.shareRegion insideP insideC apart _ _) ?_
    rintro _ k' ⟨own', forking', procs'⟩
    refine ⟨own', forking'.setChild apart rfl rfl, ?_⟩
    rw [Kernel.setProc_procs_self, procs', fields, forking.parentProc]
    rfl
  | j + 4, below, forking, fields =>
    obtain ⟨type, single, aligned, low, high, _, leaf, readable⟩ := ok.loaded (j + 4) (by omega) below
    rw [show j + 4 = 4 + j from Nat.add_comm j 4] at *
    rw [Nat.add_sub_cancel_left, sharedPages_loaded] at forking
    rw [forkedChild_loaded] at fields
    rw [show 4 + j + 1 = 4 + (j + 1) from rfl, Nat.add_sub_cancel_left, sharedPages_loaded, forkedChild_loaded]
    rcases type with code | data
    · have access := forking.parentAccess ((k₁.procs parent).regions (4 + j)).va
      have look : lookupPa env (k₁.procs parent).pagetable ((k₁.procs parent).regions (4 + j)).va k = _ :=
        forking.parentProc ▸ lookupPa_readable (access.1.1.trans leaf.1) (access.1.2.2.trans readable) low high
      rw [codeRegions_code code]
      simp only [code, single]
      refine Ensures.step (get_apply k) ?_
      rw [forking.parentProc]
      refine Ensures.step look ?_
      refine Ensures.bind (forking.mapCodeRegion insideP insideC apart (ok.loaded (4 + j) (by omega) below)) ?_
      rintro _ k' ⟨own', forking', procs'⟩
      have region : (⟨((k₁.procs parent).regions (4 + j)).va, 1, .CODE_SEGMENT⟩ : MappedRegion) =
        (k₁.procs parent).regions (4 + j) := by
        rw [← code, ← single]
      refine ⟨own', ?_, ?_⟩
      · have pages : ∀ L region, codePages (L ++ [region]) = pageOf region.va :: codePages L :=
          fun L region => by simp [codePages]
        rw [pages]
        exact forking'.setChild apart rfl rfl
      · rw [Kernel.setProc_procs_self, procs', fields, region]
        exact withCode_append _ _ _
    · have other : ((k₁.procs parent).regions (4 + j)).segType ≠ .CODE_SEGMENT := by rw [data]; decide
      rw [codeRegions_other other]
      simp only [data]
      exact ⟨own, forking, fields⟩

/-- The loop over the first `n` regions. -/
theorem forkRegions (ok : ProcOk (k₁.procs parent) (pteOf k₁ parent)) (space : Space S k₁ own₁)
    (insideP : HasSpace k₁ parent) (insideC : HasSpace k₁ child) (apart : parent ≠ child)
    (total : (k₁.procs child).totalMappedRegion = 4) {n : ℕ} (small : n ≤ (k₁.procs parent).totalMappedRegion) :
    Yields ((List.range n).forM (Model.forkRegion env parent child)) k₁ fun _ k' => ∃ own',
    Forking S k₁ own₁ parent
      child (sharedPages (k₁.procs parent) n) (codePages (codeRegions (k₁.procs parent) (n - 4))) k' own' ∧
      k'.procs child = forkedChild (k₁.procs child) (k₁.procs parent) n := by
  apply Ensures.forM_range
  · exact ⟨own₁, start space, (withCode_nil total).symm⟩
  · rintro i below k ⟨own, forking, fields⟩
    exact forking.forkRegion ok insideP insideC apart (lt_of_lt_of_le below small) fields

end Forking

/-- The effect of `insert_to_ready_queue`: links of the queue change, and the process may become `READY`. -/
structure Queued (proc : ℕ) (k k' : Kernel σ) : Prop where
  mem : k'.mem = k.mem
  pool : k'.pool = k.pool
  trace : k'.trace = k.trace
  current : k'.current = k.current
  tp : k'.tp = k.tp
  procs : ∀ i, ∃ next, k'.procs i = { k.procs i with queueNext := next } ∨
    i = proc ∧ k'.procs i = { k.procs i with status := .READY, queueNext := next }

namespace Queued

variable {proc : ℕ} {k k' : Kernel σ}

theorem refl (proc : ℕ) (k : Kernel σ) :
    Queued proc k k := ⟨rfl, rfl, rfl, rfl, rfl, fun i => ⟨(k.procs i).queueNext, Or.inl rfl⟩⟩

theorem link (queued : Queued proc k k') (j : ℕ) (next : Option ℕ) :
    Queued proc k (k'.setProc j fun p => { p with queueNext := next }) := by
  refine ⟨queued.mem, queued.pool, queued.trace, queued.current, queued.tp, fun i => ?_⟩
  by_cases here : i = j
  · subst here
    rw [Kernel.setProc_procs_self]
    obtain ⟨_, same | ⟨self, same⟩⟩ := queued.procs i
    · exact ⟨next, Or.inl (by rw [same])⟩
    · exact ⟨next, Or.inr ⟨self, by rw [same]⟩⟩
  · rw [Kernel.setProc_procs_of_ne _ _ _ here]
    exact queued.procs i

theorem ready (queued : Queued proc k k') (next : Option ℕ) :
    Queued proc k (k'.setProc proc fun p => { p with status := .READY, queueNext := next }) := by
  refine ⟨queued.mem, queued.pool, queued.trace, queued.current, queued.tp, fun i => ?_⟩
  by_cases here : i = proc
  · subst here
    rw [Kernel.setProc_procs_self]
    obtain ⟨_, same | ⟨self, same⟩⟩ := queued.procs i
    · exact ⟨next, Or.inr ⟨rfl, by rw [same]⟩⟩
    · exact ⟨next, Or.inr ⟨self, by rw [same]⟩⟩
  · rw [Kernel.setProc_procs_of_ne _ _ _ here]
    exact queued.procs i

end Queued

theorem insertToReadyQueue_queued (proc : ℕ) (k : Kernel σ) :
    Yields (insertToReadyQueue proc) k fun _ k' => Queued proc k k' := by
  rw [insertToReadyQueue, insertToReadyQueueWithin]
  refine Ensures.step (get_apply k) ?_
  cases head : k.readyQueueHead with
  | none =>
    obtain ⟨mem, pool, trace, current, tp, procs⟩ := (Queued.refl proc k).ready none
    exact ⟨mem, pool, trace, current, tp, procs⟩
  | some first =>
    simp only
    cases walk : queueLast k.procs proc (NPROC + 1) first with
    | error stop => trivial
    | ok last? =>
      cases last? with
      | none => exact .refl proc k
      | some last => exact ((Queued.refl proc k).link last (some proc)).ready none

/-- The process structure that `do_fork` makes of a new one `c` for the parent `p`. -/
def childOf (c p : Process) (parent tp : ℕ) : Process :=
  { withCode c (codeRegions p (p.totalMappedRegion - 4)) with
    frame := { p.frame with regs := Function.update (Function.update p.frame.regs .tp tp) .a0 0 }
    userHeap := p.userHeap
    status := .READY
    parent := some parent }

theorem Kernel.setProc_setProc (k : Kernel σ) (i : ℕ) (first second : Process → Process) :
    (k.setProc i first).setProc i second = k.setProc i (second ∘ first) := by
  simp [Kernel.setProc]

/-- The assignments of `do_fork` to the child after the loop. -/
def finishChild (parent tp : ℕ) (p : Process) : Process :=
  { p with
    frame := { p.frame with regs := Function.update (Function.update p.frame.regs .tp tp) .a0 0 }
    status := .READY
    parent := some parent }

/-- What the part of `do_fork` after the loop does. -/
structure ForkEnded (lay : Layout) (parent child : ℕ) (k k' : Kernel σ) : Prop where
  mem : k'.mem = k.mem
  pool : k'.pool = k.pool
  trace : k'.trace = .fork parent child :: k.trace
  current : k'.current = k.current
  tp : k'.tp = k.tp
  others : ∀ pid, pid ≠ child → ∃ next, k'.procs pid = { k.procs pid with queueNext := next }
  child : ∃ next, k'.procs child = { finishChild parent (lay.procAddr child) (k.procs child)
    with queueNext := next }

theorem fork_end (lay : Layout) (parent child : ℕ) (k : Kernel σ) :
    Yields (do
      modify fun k => k.setProc child fun p =>
        { p with
          frame := { p.frame with regs := Function.update p.frame.regs .tp (lay.procAddr child) }, status := .READY }
      modify fun k => k.setProc child fun p =>
        { p with frame := { p.frame with regs := Function.update p.frame.regs .a0 0 }, parent := some parent }
      insertToReadyQueue child
      modify fun k => k.record (.fork parent child)
      return child) k fun i k' => i = child ∧ ForkEnded lay parent child k k' := by
  refine Ensures.step (modify_apply _ _) ?_
  refine Ensures.step (modify_apply _ _) ?_
  rw [Kernel.setProc_setProc]
  refine Ensures.bind (insertToReadyQueue_queued child
    (k.setProc child (finishChild parent (lay.procAddr child)))) ?_
  rintro _ k₄ queued
  refine ⟨rfl, queued.mem, queued.pool, congrArg (PageEvent.fork parent child :: ·) queued.trace,
    queued.current, queued.tp, fun pid other => ?_, ?_⟩
  · obtain ⟨next, same | ⟨rfl, _⟩⟩ := queued.procs pid
    · rw [Kernel.setProc_procs_of_ne _ _ _ other] at same
      exact ⟨next, same⟩
    · exact absurd rfl other
  · obtain ⟨next, same | ⟨_, same⟩⟩ := queued.procs child
    · rw [Kernel.setProc_procs_self] at same
      exact ⟨next, same⟩
    · rw [Kernel.setProc_procs_self] at same
      exact ⟨next, same⟩

namespace ForkEnded

variable {lay : Layout} {parent child : ℕ} {k k' : Kernel σ}

theorem fields (ended : ForkEnded lay parent child k k') (pid : ℕ) :
    (k'.procs pid).pagetable = (k.procs pid).pagetable ∧
    ((k'.procs pid).status = (k.procs pid).status ∨ pid = child ∧ (k'.procs pid).status = .READY) := by
  by_cases here : pid = child
  · obtain ⟨next, self⟩ := ended.child
    rw [here, self]
    exact ⟨rfl, Or.inr ⟨rfl, rfl⟩⟩
  · obtain ⟨next, same⟩ := ended.others pid here
    rw [same]
    exact ⟨rfl, Or.inl rfl⟩

theorem hasSpace (ended : ForkEnded lay parent child k k')
    (alive : (k.procs child).status ≠ .ZOMBIE) (pid : ℕ) :
    HasSpace k' pid ↔ HasSpace k pid := by
  obtain ⟨root, status⟩ := ended.fields pid
  rw [HasSpace, HasSpace, root]
  rcases status with same | ⟨rfl, ready⟩
  · rw [same]
  · rw [ready]
    simp [alive]

theorem ptes (ended : ForkEnded lay parent child k k') (pid va : ℕ) : pteOf k' pid va = pteOf k pid va := by
  rw [pteOf, pteOf, rootOf, rootOf, ended.mem, (ended.fields pid).1]

end ForkEnded

/-- What `do_fork` does, in terms of the state before it. -/
structure Forked (S : Supply env trapSec) (lay : Layout) (k : Kernel σ) (parent child : ℕ) (k' : Kernel σ)
    (own' : Owner) :
    Prop where
  space : Space S k' own'
  found : freeProcess? k.procs = some child
  apart : parent ≠ child
  inside : HasSpace k' child
  current : k'.current = k.current
  tp : k'.tp = k.tp
  others : ∀ pid, pid ≠ child → ∃ next, k'.procs pid = { k.procs pid with queueNext := next }
  fields : ∃ c next, NewProcess c ∧
    k'.procs child = { childOf c (k.procs parent) parent (lay.procAddr child) with queueNext := next }
  ptes : ∀ pid, pid ≠ parent → pid ≠ child → HasSpace k pid → ∀ va, pteOf k' pid va = pteOf k pid va
  parentPtes : ∀ va, pteOf k' parent va = parentEntry (cowPages (k.procs parent)) (pteOf k parent) va
  childPtes : ∃ entry f, NewSpace entry f ∧ ∀ va, pteOf k' child va = childEntry (cowPages (k.procs parent))
    (codePages (codeRegions (k.procs parent) ((k.procs parent).totalMappedRegion - 4)))
    (pteOf k parent) entry va

section

variable {lay : Layout} {S : Supply env (lay.trapSecStart / PGSIZE)} {k : Kernel σ} {own : Owner} {parent : ℕ}

/-- `do_fork`. -/
theorem Good.doFork (good : Good S k own) (live : Live k parent) :
    Yields (doFork env lay parent) k fun child k' => ∃ own', Forked S lay k parent child k' own' := by
  rw [Model.doFork]
  refine Ensures.bind good.space.allocProcess ?_
  rintro child k₁ ⟨own₁, spawned⟩
  have apart : parent ≠ child := by
    rintro rfl
    exact live.2 (freeProcess?_some spawned.found).2
  have insideP : HasSpace k₁ parent := (spawned.only.hasSpace apart).mpr live.1
  have parentProc : k₁.procs parent = k.procs parent := spawned.only.procs parent apart
  have parentPtes : pteOf k₁ parent = pteOf k parent := funext (spawned.only.ptes parent apart live.1)
  have ok : ProcOk (k₁.procs parent) (pteOf k₁ parent) := by
    rw [parentProc, parentPtes]
    exact good.procs parent live.1
  refine Ensures.step (get_apply k₁) ?_
  refine Ensures.bind (Forking.forkRegions ok spawned.only.space insideP spawned.inside apart
    spawned.fields.total le_rfl) ?_
  rintro _ k₂ ⟨own₂, forking, fields⟩
  obtain ⟨n, total⟩ := Nat.exists_eq_add_of_le ok.total.1
  rw [total, Nat.add_sub_cancel_left, sharedPages_loaded] at forking
  rw [total, forkedChild_loaded] at fields
  refine Ensures.mono (fork_end lay parent child k₂) ?_
  rintro i k' ⟨isChild, ended⟩
  rw [isChild]
  obtain ⟨f, leaves, _⟩ := spawned.leaves
  have alive : (k₂.procs child).status ≠ .ZOMBIE := by
    rw [forking.childTable.2, spawned.fields.status]
    decide
  have space₂ : Space S (k₂.record (.fork parent child)) own₂ := forking.only.space.record trivial
  refine ⟨own₂, space₂.restrict ended.mem ended.pool ended.trace ended.tp fun pid inside =>
    ⟨(ended.hasSpace alive pid).mp inside, (ended.fields pid).1⟩, spawned.found, apart,
    (ended.hasSpace alive child).mpr (forking.insideChild spawned.inside),
    ended.current.trans (forking.only.current.trans spawned.only.current),
    ended.tp.trans (forking.only.tp.trans spawned.only.tp), ?_, ?_, ?_, ?_, ?_⟩
  · intro pid other
    obtain ⟨next, same⟩ := ended.others pid other
    refine ⟨next, same.trans ?_⟩
    by_cases here : pid = parent
    · rw [here, forking.parentProc, parentProc]
    · rw [forking.only.procs pid (not_or.mpr ⟨here, other⟩), spawned.only.procs pid other]
  · obtain ⟨next, self⟩ := ended.child
    refine ⟨_, next, spawned.fields, ?_⟩
    rw [self, fields, ← parentProc, childOf, total, Nat.add_sub_cancel_left]
    rfl
  · intro pid otherP otherC old va
    rw [ended.ptes, forking.only.ptes pid (not_or.mpr ⟨otherP, otherC⟩)
      ((spawned.only.hasSpace otherC).mpr old), spawned.only.ptes pid otherC old]
  · intro va
    rw [ended.ptes, forking.parentPtes, parentProc, parentPtes]
  · refine ⟨_, f, leaves, fun va => ?_⟩
    rw [ended.ptes, forking.childPtes, ← parentProc, parentPtes, total, Nat.add_sub_cancel_left]

end

theorem codeEntry_leaf (pte : ℕ) :
    UserLeaf (codeEntry pte) ∧ has (codeEntry pte) PTE_R = true ∧ has (codeEntry pte) PTE_W = false := by
  rw [codeEntry, UserLeaf, show PTE_U = 2 ^ 4 from rfl, show PTE_R = 2 ^ 1 from rfl,
    show PTE_W = 2 ^ 2 from rfl, has_leaf (by decide), has_leaf (by decide), has_leaf (by decide)]
  exact ⟨⟨has_valid_or _, by decide⟩, by decide, by decide⟩

theorem frameOf_codeEntry (pte : ℕ) : frameOf (codeEntry pte) = frameOf pte := frameOf_flags (by decide)

theorem mem_codeRegions {p : Process} {n : ℕ} {region : MappedRegion} :
    region ∈ codeRegions p n ↔ ∃ i, 4 ≤ i ∧ i < 4 + n ∧ region = p.regions i ∧
    region.segType = .CODE_SEGMENT := by
  simp only [codeRegions, List.mem_filter, List.mem_map, List.mem_range, decide_eq_true_eq]
  constructor
  · rintro ⟨⟨j, below, rfl⟩, type⟩
    exact ⟨4 + j, by omega, by omega, rfl, type⟩
  · rintro ⟨i, low, high, rfl, type⟩
    exact ⟨⟨i - 4, by omega, by rw [show 4 + (i - 4) = i by omega]⟩, type⟩

theorem mem_codePages {code : List MappedRegion} {x : ℕ} :
    x ∈ codePages code ↔ ∃ region ∈ code, x = pageOf region.va := by
  simp [codePages, eq_comm]

theorem mem_cowPages {p : Process} {x : ℕ} : x ∈ cowPages p ↔
    (∃ j < (p.regions 3).npages, x = pageOf (regionPage (p.regions 3) j)) ∨ x = pageOf STACK_PAGE := by
  simp [cowPages, regionPages, eq_comm]

/-- The regions of a child are the fixed ones, and after these code regions of the parent. -/
theorem withCode_loaded (c : Process) (code : List MappedRegion) {i : ℕ} (low : 4 ≤ i)
    (high : i < 4 + code.length) :
    (withCode c code).regions i ∈ code := by
  have below : i - 4 < code.length := by omega
  simp only [withCode, if_pos low, List.getElem?_eq_getElem below, Option.getD_some]
  exact List.getElem_mem below

private theorem withCode_complete (c : Process) {code : List MappedRegion} {region : MappedRegion}
    (member : region ∈ code) :
    ∃ i, 4 ≤ i ∧ i < 4 + code.length ∧ (withCode c code).regions i = region := by
  obtain ⟨j, below, rfl⟩ := List.getElem_of_mem member
  refine ⟨4 + j, Nat.le_add_right _ _, Nat.add_lt_add_left below 4, ?_⟩
  simp only [withCode, Nat.add_sub_cancel_left, if_pos (Nat.le_add_right 4 j), List.getElem?_eq_getElem below,
    Option.getD_some]

private theorem withCode_unused (c : Process) (code : List MappedRegion) {i : ℕ} (high : 4 + code.length ≤ i) :
    (withCode c code).regions i = c.regions i := by
  simp only [withCode]
  rw [if_pos (by omega), List.getElem?_eq_none (by omega), Option.getD_none]

private theorem codeRegions_length (p : Process) (n : ℕ) : (codeRegions p n).length ≤ n := by
  refine (List.length_filter_le _ _).trans ?_
  rw [List.length_map, List.length_range]

private theorem heap_page {n j : ℕ} {top : ℕ} (pages : USER_FREE_ADDRESS_START + n * PGSIZE ≤ top)
    (high : top ≤ STACK_PAGE) (below : j < n) :
    (USER_FREE_ADDRESS_START + j * PGSIZE % 2 ^ 32) % WORD = USER_FREE_ADDRESS_START + j * PGSIZE ∧
      USER_FREE_ADDRESS_START + j * PGSIZE < top ∧ (USER_FREE_ADDRESS_START + j * PGSIZE) % PGSIZE = 0 := by
  have start : USER_FREE_ADDRESS_START = 1024 * PGSIZE := by decide
  rw [start] at pages ⊢
  simp only [STACK_PAGE, USER_STACK_TOP, PGSIZE, WORD] at *
  omega

/-- The pages of the heap region lie in the heap. -/
theorem ProcOk.heapPage {p : Process} {pte : ℕ → ℕ} (ok : ProcOk p pte) {j : ℕ}
    (below : j < (p.regions 3).npages) :
    regionPage (p.regions 3) j % PGSIZE = 0 ∧ p.userHeap.heapBottom ≤ regionPage (p.regions 3) j ∧
      regionPage (p.regions 3) j < p.userHeap.heapTop := by
  obtain ⟨value, high, aligned⟩ := heap_page ok.heapPages ok.top.2.2 below
  rw [regionPage, ok.fixed.heap.2, value, ok.bottom]
  exact ⟨aligned, Nat.le_add_right _ _, high⟩

/-- A child satisfies the invariant. -/
private theorem childOf_ok {p c : Process} {pte entry : ℕ → ℕ} {f : ℕ} (ok : ProcOk p pte) (new : NewProcess c)
    (leaves : NewSpace entry f) (parent tp : ℕ) :
    ProcOk (childOf c p parent tp) (childEntry (cowPages p)
      (codePages (codeRegions p (p.totalMappedRegion - 4)))
      pte entry) := by
  have newOk := new.procOk leaves
  have count := codeRegions_length p (p.totalMappedRegion - 4)
  have ofCode : ∀ {region}, region ∈ codeRegions p (p.totalMappedRegion - 4) → Loaded p.userHeap pte region ∧
      region.segType = .CODE_SEGMENT := by
    intro region member
    obtain ⟨i, low, high, rfl, type⟩ := mem_codeRegions.mp member
    have := ok.total.1
    exact ⟨ok.loaded i low (by omega), type⟩
  have fixed : ∀ i < 4, (childOf c p parent tp).regions i = c.regions i := fun i low => if_neg (by omega)
  have stackUser : UserLeaf (childEntry (cowPages p) (codePages (codeRegions p (p.totalMappedRegion - 4))) pte
    entry STACK_PAGE) := by
    rw [childEntry]
    split_ifs with code cow
    · exact (codeEntry_leaf _).1
    · exact (shared_access _).userLeaf.mpr ok.stack
    · exact absurd ⟨mem_cowPages.mpr (Or.inr rfl), ok.stack.1⟩ cow
  refine ⟨⟨?_, ?_, ?_, ?_⟩, ?_, ?_, ?_, ok.bottom, ok.top, ?_,
    ⟨ok.heap.count, ok.heap.aligned, ok.heap.range, ?_, ok.heap.distinct⟩,
    stackUser, ?_, fun free => ProcStatus.noConfusion free⟩
  · rw [fixed 0 (by decide)]
    exact newOk.fixed.stack
  · rw [fixed 1 (by decide)]
    exact newOk.fixed.context
  · rw [fixed 2 (by decide)]
    exact newOk.fixed.system
  · rw [fixed 3 (by decide)]
    exact newOk.fixed.heap
  · have := ok.total
    exact ⟨Nat.le_add_right _ _, by change 4 + (codeRegions p (p.totalMappedRegion - 4)).length ≤ _; omega⟩
  · intro i high
    change ((withCode c _).regions i).va = 0
    rw [withCode_unused c _ high]
    exact newOk.unused i (by rw [new.total]; exact le_trans (Nat.le_add_right _ _) high)
  · intro i low high
    obtain ⟨loaded, type⟩ := ofCode (withCode_loaded c _ low high)
    have page : pageOf ((withCode c (codeRegions p (p.totalMappedRegion - 4))).regions i).va ∈
        codePages (codeRegions p (p.totalMappedRegion - 4)) :=
        mem_codePages.mpr ⟨_, withCode_loaded c _ low high, rfl⟩
    obtain ⟨leaf, readable, _⟩ := codeEntry_leaf
      (pte ((withCode c (codeRegions p (p.totalMappedRegion - 4))).regions i).va)
    refine ⟨Or.inl type, loaded.single, loaded.aligned, loaded.low, loaded.high, loaded.apart, ?_, ?_⟩
    · rw [childEntry]
      exact (if_pos page).symm ▸ leaf
    · rw [childEntry]
      exact (if_pos page).symm ▸ readable
  · rw [fixed 3 (by decide)]
    exact newOk.heapPages.trans (by rw [new.heapTop]; exact ok.top.2.1)
  · intro i below
    have mine := ok.heap.range i below
    have high := (ok.heap_below mine.2)
    rw [childEntry, if_neg, if_neg]
    · exact leaves.low _ high
    · rintro ⟨_, valid⟩
      rw [show pte ((childOf c p parent tp).userHeap.freePagesAddress i) =
        pte (p.userHeap.freePagesAddress i) from rfl, ok.heap.unmapped i below] at valid
      exact absurd valid (by decide)
    · intro inCode
      obtain ⟨region, member, page⟩ := mem_codePages.mp inCode
      have loaded := (ofCode member).1
      have equal := pageOf_injective (ok.heap.aligned i below) loaded.aligned
        (high.trans (by decide)) loaded.high page
      have := loaded.apart
      omega
  · intro va leaf
    rw [childEntry] at leaf
    split_ifs at leaf with code cow
    · obtain ⟨region, member, page⟩ := mem_codePages.mp code
      obtain ⟨i, low, high, rfl⟩ := withCode_complete c member
      exact Or.inr (Or.inr ⟨i, low, high, page⟩)
    · rcases mem_cowPages.mp cow.1 with ⟨j, below, page⟩ | page
      · obtain ⟨aligned, low, high⟩ := ok.heapPage below
        exact Or.inr (Or.inl ⟨_, aligned, low, high, page⟩)
      · exact Or.inl page
    · exact Or.inl (leaves.user va leaf)

namespace Forked

variable {lay : Layout} {k k' : Kernel σ} {own own' : Owner} {parent child : ℕ}

theorem hasSpace (forked : Forked S lay k parent child k' own') {pid : ℕ} (other : pid ≠ child) :
    HasSpace k' pid ↔ HasSpace k pid := by
  obtain ⟨next, same⟩ := forked.others pid other
  rw [HasSpace, HasSpace, same]

/-- The parent keeps frames and access; only write access may be gone. -/
theorem parentAccess (forked : Forked S lay k parent child k' own') (va : ℕ) :
    SameAccess (pteOf k parent va) (pteOf k' parent va) ∧
      frameOf (pteOf k' parent va) = frameOf (pteOf k parent va) := by
  rw [forked.parentPtes, parentEntry]
  split_ifs
  · exact ⟨shared_access _, frameOf_shared _⟩
  · exact ⟨.refl _, rfl⟩

/-- All processes satisfy the invariant after `do_fork`. -/
theorem good (forked : Forked S lay k parent child k' own') (procs : Procs k) (inside : HasSpace k parent) :
    Good S k' own' := by
  refine ⟨forked.space, fun pid inside' => ?_⟩
  by_cases isChild : pid = child
  · subst isChild
    obtain ⟨c, next, new, fields⟩ := forked.fields
    obtain ⟨entry, f, leaves, ptes⟩ := forked.childPtes
    rw [fields, show pteOf k' pid = _ from funext ptes]
    exact (childOf_ok (procs parent inside) new leaves parent (lay.procAddr pid)).congr rfl rfl rfl id
      fun _ => .refl _
  · obtain ⟨next, same⟩ := forked.others pid isChild
    have old := procs pid ((forked.hasSpace isChild).mp inside')
    rw [same]
    refine old.congr rfl rfl rfl id fun va => ?_
    by_cases isParent : pid = parent
    · subst isParent
      exact (forked.parentAccess va).1
    · rw [forked.ptes pid isParent isChild ((forked.hasSpace isChild).mp inside')]
      exact .refl _

/-- The pages of the child that the user can access are shared with the parent, and so read-only
there, or are the code pages of the parent. -/
theorem childLeaf (forked : Forked S lay k parent child k' own') (ok : ProcOk (k.procs parent) (pteOf k parent))
    {va : ℕ} (leaf : UserLeaf (pteOf k' child va)) :
    UserLeaf (pteOf k parent va) ∧ frameOf (pteOf k' child va) = frameOf (pteOf k parent va) ∧
      has (pteOf k' child va) PTE_W = false ∧
      (has (pteOf k' parent va) PTE_W = false ∨ ∃ i, 4 ≤ i ∧ i < (k.procs parent).totalMappedRegion ∧
      ((k.procs parent).regions i).segType = .CODE_SEGMENT ∧
      pageOf va = pageOf ((k.procs parent).regions i).va) := by
  obtain ⟨entry, f, leaves, ptes⟩ := forked.childPtes
  have stack : pageOf va = pageOf STACK_PAGE → pageOf va ∈ cowPages (k.procs parent) ∧
      has (pteOf k parent va) PTE_V = true :=
    fun page => ⟨mem_cowPages.mpr (Or.inr page), by rw [pteOf_congr page]; exact ok.stack.1⟩
  rw [ptes, childEntry] at leaf
  rw [ptes, childEntry]
  split_ifs at leaf ⊢ with code cow
  · obtain ⟨region, member, page⟩ := mem_codePages.mp code
    obtain ⟨i, low, high, rfl, type⟩ := mem_codeRegions.mp member
    rw [Nat.add_sub_cancel' ok.total.1] at high
    refine ⟨?_, frameOf_codeEntry _, (codeEntry_leaf _).2.2, Or.inr ⟨i, low, high, type, page⟩⟩
    rw [pteOf_congr page]
    exact (ok.loaded i low high).leaf
  · refine ⟨(shared_access _).userLeaf.mp leaf, frameOf_shared _, shared_readOnly _, Or.inl ?_⟩
    rw [forked.parentPtes, parentEntry, if_pos cow]
    exact shared_readOnly _
  · exact absurd (stack (leaves.user va leaf)) cow

/-- If the parent has no code region, no page that some process can write is shared after `do_fork`. -/
theorem exclusive (forked : Forked S lay k parent child k' own') (exclusive : Exclusive k) (procs : Procs k)
    (inside : HasSpace k parent)
    (noCode : ∀ i, 4 ≤ i → i < (k.procs parent).totalMappedRegion → ((k.procs parent).regions i).segType
      ≠ .CODE_SEGMENT) :
    Exclusive k' := by
  have ok := procs parent inside
  have old : ∀ {pid va}, pid ≠ child → HasSpace k' pid → UserLeaf (pteOf k' pid va) → HasSpace k pid ∧
      UserLeaf (pteOf k pid va) ∧
      frameOf (pteOf k' pid va) = frameOf (pteOf k pid va) ∧
      (has (pteOf k' pid va) PTE_W = true → has (pteOf k pid va) PTE_W = true) := by
    intro pid va other inside' leaf
    have before := (forked.hasSpace other).mp inside'
    by_cases isParent : pid = parent
    · subst isParent
      obtain ⟨access, frame⟩ := forked.parentAccess va
      refine ⟨before, access.userLeaf.mp leaf, frame, fun writable => ?_⟩
      rw [forked.parentPtes, parentEntry] at writable
      split_ifs at writable
      · rw [shared_readOnly] at writable
        exact absurd writable (by decide)
      · exact writable
    · rw [forked.ptes pid isParent other before] at *
      exact ⟨before, leaf, rfl, id⟩
  intro pid va pid' va' inside₁ inside₂ leaf₁ leaf₂ writable same
  by_cases first : pid = child
  · subst first
    rw [(forked.childLeaf ok leaf₁).2.2.1] at writable
    exact absurd writable (by decide)
  obtain ⟨before₁, user₁, frame₁, wrote₁⟩ := old first inside₁ leaf₁
  by_cases second : pid' = child
  · subst second
    obtain ⟨user₂, frame₂, _, readOnly | ⟨i, low, high, type, _⟩⟩ := forked.childLeaf ok leaf₂
    · rw [frame₁, frame₂] at same
      obtain ⟨rfl, page⟩ := exclusive pid va parent va' before₁ inside user₁ user₂ (wrote₁ writable) same
      rw [pteOf_congr page, readOnly] at writable
      exact absurd writable (by decide)
    · exact absurd type (noCode i low high)
  · obtain ⟨before₂, user₂, frame₂, _⟩ := old second inside₂ leaf₂
    rw [frame₁, frame₂] at same
    exact exclusive pid va pid' va' before₁ before₂ user₁ user₂ (wrote₁ writable) same

end Forked

end Pke.Proofs
