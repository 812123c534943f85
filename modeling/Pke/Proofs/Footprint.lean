import Pke.Proofs.ForkFrames

/-! # What kernel calls write

`Enclosed` relates the state before a call to a later one. The call works on some processes: it
writes to their page tables and to pages that were not in use, and to no other page. Its entries in
these tables give the user only pages that the call may lend to the user, or pages that were not in
use.
-/

namespace Pke.Proofs

open Pke.Lib Pke.Model

variable {σ : Type} {env : PageEnv σ} {trapSec : ℕ}

/-- The pages that some process maps for the user. -/
def userFrames (k : Kernel σ) : Set ℕ :=
  {f | ∃ pid va, HasSpace k pid ∧ UserLeaf (pteOf k pid va) ∧ frameOf (pteOf k pid va) = f}

/-- The user can access the page of the entry, or the entry lies above the stack and is not shared. -/
def Lawful (va pte : ℕ) : Prop := has pte PTE_U = true ∨
    (pageOf STACK_PAGE < pageOf va ∧ has pte PTE_COW = false)

/-- An entry that a call may leave behind which began in `k₀` and may lend the pages in `lent`. -/
structure Granted (trapSec : ℕ) (lent : Set ℕ) (k₀ : Kernel σ) (va pte : ℕ) : Prop where
  lawful : Lawful va pte
  frame : has pte PTE_U = true → frameOf pte ∈ lent ∨ (frameOf pte ∉ handed k₀.trace ∧ frameOf pte ≠ trapSec)

theorem Granted.congr {lent : Set ℕ} {k₀ : Kernel σ} {va va' pte : ℕ} (granted : Granted trapSec lent k₀ va pte)
    (page : pageOf va' = pageOf va) : Granted trapSec lent k₀ va' pte := by
  refine ⟨?_, granted.frame⟩
  rw [Lawful, page]
  exact granted.lawful

/-- An entry that is made for a page. -/
theorem granted_page {lent : Set ℕ} {k₀ : Kernel σ} {va f perm : ℕ} (flags : perm < 2 ^ 10)
    (user : has (perm ||| PTE_V) PTE_U = true) (page : f ∈ lent ∨ (f ∉ handed k₀.trace ∧ f ≠ trapSec)) :
    Granted trapSec lent k₀ va (PA2PTE (f * PGSIZE) ||| perm ||| PTE_V) := by
  rw [PA2PTE_page]
  refine ⟨Or.inl ((has_leaf (n := 4) (by decide) f perm).trans user), fun _ => ?_⟩
  rwa [frameOf_flags flags]

/-- A call in progress that works on the processes in `who`; it began in `k₀`. -/
structure Enclosed (P : UserPages env trapSec) (who lent : Set ℕ) (k₀ : Kernel σ) (own₀ : ℕ → Owner)
    (k : Kernel σ) (own : ℕ → Owner) : Prop where
  ok : P.Ok k
  forest : Forest k own
  inside : ∀ c ∈ who, HasSpace k c
  taken : ∀ f ∈ handed k₀.trace, f ∈ handed k.trace
  pages : ∀ f ∈ handed k₀.trace, (∀ c ∈ who, own₀ c f = none) → k.mem f = k₀.mem f ∧ ∀ c ∈ who, own c f = none
  owners : ∀ j, j ∉ who → own j = own₀ j
  procs : ∀ j, j ∉ who → k.procs j = k₀.procs j
  spaces : ∀ c ∈ who, SameSpace (k₀.procs c) (k.procs c)
  current : k.current = k₀.current
  entries : ∀ c ∈ who, ∀ va, has (pteOf k c va) PTE_V = true → Granted trapSec lent k₀ va (pteOf k c va)

/-- The fields by which the kernel finds the pages of a process. -/
def SamePages (p q : Process) : Prop :=
  q.pagetable = p.pagetable ∧ q.trapframe = p.trapframe ∧ q.kstack = p.kstack ∧ q.mappedInfo = p.mappedInfo

/-- What may follow such a call: no page is written, and pages that were lent to the user may be released. -/
structure Settles (who lent : Set ℕ) (k k' : Kernel σ) : Prop where
  mem : k'.mem = k.mem
  taken : ∀ f ∈ handed k.trace, f ∉ lent → f ∈ handed k'.trace
  others : ∀ j, j ∉ who → ∃ next, k'.procs j = { k.procs j with queueNext := next }
  self : ∀ c ∈ who, HasSpace k' c → HasSpace k c ∧ SamePages (k.procs c) (k'.procs c)

namespace Settles

variable {who lent : Set ℕ} {k k' k'' : Kernel σ} {c : ℕ}

theorem refl (k : Kernel σ) : Settles who lent k k :=
  ⟨rfl, fun _ taken _ => taken, fun j _ => ⟨(k.procs j).queueNext, rfl⟩, fun _ _ inside =>
    ⟨inside, rfl, rfl, rfl, rfl⟩⟩

theorem trans (first : Settles who lent k k') (second : Settles who lent k' k'') : Settles who lent k k'' := by
  refine ⟨second.mem.trans first.mem, fun f taken free => second.taken f (first.taken f taken free) free,
    fun j other => ?_, fun c member inside => ?_⟩
  · obtain ⟨next, same⟩ := first.others j other
    obtain ⟨next', same'⟩ := second.others j other
    exact ⟨next', by rw [same', same]⟩
  · obtain ⟨inside', table', trapframe', kstack', info'⟩ := second.self c member inside
    obtain ⟨inside'', table, trapframe, kstack, info⟩ := first.self c member inside'
    exact ⟨inside'', table'.trans table, trapframe'.trans trapframe, kstack'.trans kstack, info'.trans info⟩

/-- Changing fields of one of the processes; it may become a `ZOMBIE`. -/
theorem setProc (member : c ∈ who) {change : Process → Process}
    (pages : SamePages (k.procs c) (change (k.procs c)))
    (status : (k.procs c).status = .ZOMBIE → (change (k.procs c)).status = .ZOMBIE) :
    Settles who lent k (k.setProc c change) := by
  refine ⟨rfl, fun _ taken _ => taken, fun j other => ⟨(k.procs j).queueNext, ?_⟩, fun j _ inside => ?_⟩
  · rw [Kernel.setProc_procs_of_ne]
    rintro rfl
    exact other member
  · by_cases here : j = c
    · subst here
      rw [HasSpace, Kernel.setProc_procs_self, pages.1] at inside
      rw [Kernel.setProc_procs_self]
      exact ⟨⟨inside.1, inside.2.1, fun zombie => inside.2.2 (status zombie)⟩, pages⟩
    · rw [HasSpace, Kernel.setProc_procs_of_ne _ _ _ here] at inside
      rw [Kernel.setProc_procs_of_ne _ _ _ here]
      exact ⟨inside, rfl, rfl, rfl, rfl⟩

theorem record {e : PageEvent} (log : Logs e) : Settles who lent k (k.record e) :=
  ⟨rfl, fun f taken _ => by rwa [Kernel.record, handed_logs log], fun j _ => ⟨(k.procs j).queueNext, rfl⟩,
    fun _ _ inside => ⟨inside, rfl, rfl, rfl, rfl⟩⟩

/-- Passing a page that was lent to `pfree`. -/
theorem gave {pa : ℕ} (page : pa / PGSIZE ∈ lent) (pool : σ) : Settles who lent k (k.gave pa pool) := by
  refine ⟨rfl, fun f taken free => (List.mem_erase_of_ne ?_).mpr taken, fun j _ => ⟨(k.procs j).queueNext, rfl⟩,
    fun _ _ inside => ⟨inside, rfl, rfl, rfl, rfl⟩⟩
  rintro rfl
  exact free page

end Settles

namespace Enclosed

variable {P : UserPages env trapSec} {who lent : Set ℕ} {k₀ k k' : Kernel σ} {own₀ own : ℕ → Owner} {c : ℕ}

theorem refl (ok : P.Ok k) (forest : Forest k own) (inside : ∀ c ∈ who, HasSpace k c)
    (entries : ∀ c ∈ who, ∀ va, has (pteOf k c va) PTE_V = true → Granted trapSec lent k va (pteOf k c va)) :
    Enclosed P who lent k own k own :=
  ⟨ok, forest, inside, fun _ taken => taken, fun _ _ free => ⟨rfl, free⟩, fun _ _ => rfl, fun _ _ => rfl,
    fun _ _ => .refl _, rfl, entries⟩

theorem hasSpace (enclosed : Enclosed P who lent k₀ own₀ k own) (j : ℕ) : HasSpace k j ↔ HasSpace k₀ j := by
  rw [HasSpace, HasSpace]
  by_cases member : j ∈ who
  · rw [(enclosed.spaces j member).pagetable, (enclosed.spaces j member).status]
  · rw [enclosed.procs j member]

/-- The translations of the other processes are the same. -/
theorem ptes (enclosed : Enclosed P who lent k₀ own₀ k own) (forest₀ : Forest k₀ own₀) {j : ℕ} (other : j ∉ who)
    (inside : HasSpace k₀ j) (va : ℕ) : pteOf k j va = pteOf k₀ j va := by
  refine forest₀.samePte inside (by rw [rootOf, rootOf, enclosed.procs j other]) (fun t named => ?_) va
  refine (enclosed.pages t (forest₀.taken j inside t named) fun c member => ?_).1
  refine forest₀.apart j c inside ((enclosed.hasSpace c).mp (enclosed.inside c member)) ?_ t named
  rintro rfl
  exact other member

/-- A change of the allocator and of the history. -/
theorem same (enclosed : Enclosed P who lent k₀ own₀ k own) (ok : P.Ok k') (mem : k'.mem = k.mem)
    (procs : k'.procs = k.procs) (current : k'.current = k.current) (taken : ∀ f ∈ handed k.trace,
      f ∈ handed k'.trace) : Enclosed P who lent k₀ own₀ k' own := by
  have spaces : ∀ j, HasSpace k' j ↔ HasSpace k j := fun j => by rw [HasSpace, HasSpace, procs]
  have roots : ∀ j, rootOf k' j = rootOf k j := fun j => by rw [rootOf, rootOf, procs]
  refine ⟨ok, enclosed.forest.same mem taken fun j inside => ⟨(spaces j).mp inside, roots j⟩,
    fun c member => (spaces c).mpr (enclosed.inside c member),
      fun f inside => taken f (enclosed.taken f inside), ?_,
    enclosed.owners, ?_, ?_, current.trans enclosed.current, fun c member va => ?_⟩
  · rw [mem]
    exact enclosed.pages
  · rw [procs]
    exact enclosed.procs
  · rw [procs]
    exact enclosed.spaces
  · rw [pteOf, roots, mem]
    exact enclosed.entries c member va

theorem record (enclosed : Enclosed P who lent k₀ own₀ k own) {e : PageEvent} (log : Logs e) :
    Enclosed P who lent k₀ own₀ (k.record e) own := by
  refine enclosed.same (P.logged log enclosed.ok) rfl rfl rfl fun f taken => ?_
  rwa [Kernel.record, handed_logs log]

/-- `get_page`. -/
theorem share (enclosed : Enclosed P who lent k₀ own₀ k own) (pa : ℕ) :
    Enclosed P who lent k₀ own₀ { k with pool := env.share pa k } own :=
  enclosed.same (P.share pa enclosed.ok) rfl rfl rfl fun _ taken => taken

/-- Changing other fields of one of the processes. -/
theorem setProc (enclosed : Enclosed P who lent k₀ own₀ k own) (member : c ∈ who) {change : Process → Process}
    (space : ∀ p, SameSpace p (change p)) : Enclosed P who lent k₀ own₀ (k.setProc c change) own := by
  obtain ⟨builds, ptes⟩ := enclosed.forest.setProc (c := c) enclosed.ok space
  refine ⟨builds.ok, builds.forest, fun j inside => (builds.hasSpace j).mpr (enclosed.inside j inside),
    enclosed.taken, enclosed.pages, enclosed.owners, fun j other => ?_, fun j inside => ?_, enclosed.current,
    fun j inside va => ?_⟩
  · rw [Kernel.setProc_procs_of_ne]
    · exact enclosed.procs j other
    · rintro rfl
      exact other member
  · by_cases here : j = c
    · subst here
      rw [Kernel.setProc_procs_self]
      exact (enclosed.spaces j inside).trans (space _)
    · rw [Kernel.setProc_procs_of_ne _ _ _ here]
      exact enclosed.spaces j inside
  · rw [ptes]
    exact enclosed.entries j inside va

theorem stepProc (enclosed : Enclosed P who lent k₀ own₀ k own) (member : c ∈ who) {α : Type}
    {rest : Exec (Kernel σ) α} {post : α → Kernel σ → Prop} {change : Process → Process}
    (space : ∀ p, SameSpace p (change p)) (next : ∀ k', Enclosed P who lent k₀ own₀ k' own →
      Yields rest k' post) :
    Yields (do modify fun k => k.setProc c change; rest) k post :=
  Ensures.step (modify_apply _ _) (next _ (enclosed.setProc member space))

/-- Adding tables to the page table of one of the processes. -/
theorem graft (enclosed : Enclosed P who lent k₀ own₀ k own) (member : c ∈ who) {own₁ : Owner}
    (grafts : Grafts P.toPages (rootOf k c) k (own c) k' own₁)
    (entries : ∀ va, has (pteOf k' c va) PTE_V = true → Granted trapSec lent k₀ va (pteOf k' c va)) :
    Enclosed P who lent k₀ own₀ k' (Function.update own c own₁) := by
  obtain ⟨builds, others⟩ := enclosed.forest.graft (enclosed.inside c member) grafts
  refine ⟨builds.ok, builds.forest, fun j inside => (builds.hasSpace j).mpr (enclosed.inside j inside),
    fun f inside => grafts.taken f (enclosed.taken f inside), fun f inside free => ?_,
      fun j other => ?_, ?_, ?_,
    grafts.current.trans enclosed.current, fun j inside va => ?_⟩
  · obtain ⟨mem, unnamed⟩ := enclosed.pages f inside free
    obtain ⟨data, kept⟩ := grafts.data f (enclosed.taken f inside) (unnamed c member)
    refine ⟨kept.trans mem, fun j inside' => ?_⟩
    by_cases here : j = c
    · rw [here, Function.update_self]
      exact data
    · rw [Function.update_of_ne here]
      exact unnamed j inside'
  · rw [Function.update_of_ne]
    · exact enclosed.owners j other
    · rintro rfl
      exact other member
  · rw [grafts.procs]
    exact enclosed.procs
  · rw [grafts.procs]
    exact enclosed.spaces
  · by_cases here : j = c
    · rw [here]
      exact entries va
    · rw [others j here (enclosed.inside j inside)]
      exact enclosed.entries j inside va

/-- A walk of one of the processes that may add tables. -/
theorem walk (enclosed : Enclosed P who lent k₀ own₀ k own) (member : c ∈ who) {va : ℕ} {α : Type}
    {rest : Option Slot → Exec (Kernel σ) α} {post : α → Kernel σ → Prop}
    (next : ∀ k' own' t, Enclosed P who lent k₀ own₀ k' own' → leafTable k'.mem (rootOf k' c) va = some t →
      k'.procs = k.procs → (∀ j, HasSpace k j → ∀ va', pteOf k' j va' = pteOf k j va') →
      (∀ f ∈ handed k.trace, own c f = none → k'.mem f = k.mem f) → Yields (rest (some (t, PX 0 va))) k' post) :
    Yields (pageWalk env (k.procs c).pagetable va 0 true >>= rest) k post := by
  have inside := enclosed.inside c member
  refine Ensures.bind ((enclosed.forest.site enclosed.ok inside).walk (trivialStops env) fun _ _ => trivial) ?_
  rintro _ k' ⟨_, _, own₁, t, rfl, grafts, found, same⟩
  obtain ⟨builds, others⟩ := enclosed.forest.graft inside grafts
  have self : ∀ va', pteOf k' c va' = pteOf k c va' := fun va' => by
    rw [pteOf, builds.root]
    exact same va'
  refine next k' _ t (enclosed.graft member grafts fun va' valid => ?_)
    (by rw [builds.root]; exact found) grafts.procs ?_
    fun f taken free => (grafts.data f taken free).2
  · rw [self] at valid ⊢
    exact enclosed.entries c member va' valid
  · intro j insideJ va'
    by_cases here : j = c
    · rw [here]
      exact self va'
    · exact others j here insideJ va'

/-- Storing a leaf entry of one of the processes. -/
theorem setLeaf (enclosed : Enclosed P who lent k₀ own₀ k own) (member : c ∈ who) {va t pte : ℕ}
    (found : leafTable k.mem (rootOf k c) va = some t) (leaf : pte ≠ 0 → has pte PTE_V = true)
    (granted : has pte PTE_V = true → Granted trapSec lent k₀ va pte) :
    Enclosed P who lent k₀ own₀ (k.setWord t (PX 0 va) pte) own := by
  have inside := enclosed.inside c member
  obtain ⟨forest, self, others⟩ := enclosed.forest.setLeaf inside found leaf
  have rooted := enclosed.forest.rooted c inside
  have named := rooted.tables.leafTable_owner rooted.root found
  refine ⟨P.stable (k := k) rfl rfl rfl enclosed.ok, forest, enclosed.inside, enclosed.taken,
    fun f taken free => ?_, enclosed.owners, enclosed.procs, enclosed.spaces, enclosed.current,
      fun j inside' va' => ?_⟩
  · obtain ⟨mem, unnamed⟩ := enclosed.pages f taken free
    refine ⟨Eq.trans (Function.update_of_ne ?_ _ _) mem, unnamed⟩
    rintro rfl
    rw [unnamed c member] at named
    cases named
  · by_cases here : j = c
    · subst here
      rw [self]
      split_ifs with page
      · exact fun valid => (granted valid).congr page
      · exact enclosed.entries j inside' va'
    · rw [others j here (enclosed.inside j inside')]
      exact enclosed.entries j inside' va'

/-- Writing to a page that was not in use and is no table. -/
theorem setPage (enclosed : Enclosed P who lent k₀ own₀ k own) {f : ℕ} (fresh : f ∉ handed k₀.trace)
    (data : ¬ TablePage k f) (words : ℕ → ℕ) : Enclosed P who lent k₀ own₀ (k.setPage f words) own := by
  refine ⟨P.stable (k := k) rfl rfl rfl enclosed.ok, enclosed.forest.setPage data words, enclosed.inside,
    enclosed.taken, fun g taken free => ?_, enclosed.owners, enclosed.procs, enclosed.spaces,
    enclosed.current, fun j inside va => ?_⟩
  · obtain ⟨mem, unnamed⟩ := enclosed.pages g taken free
    refine ⟨Eq.trans (Function.update_of_ne ?_ _ _) mem, unnamed⟩
    rintro rfl
    exact fresh taken
  · have root : rootOf (k.setPage f words) j = rootOf k j := rfl
    have same : pteOf (k.setPage f words) j va = pteOf k j va := by
      refine enclosed.forest.samePte (enclosed.inside j inside) root (fun t named => ?_) va
      refine Function.update_of_ne ?_ _ _
      rintro rfl
      exact named (enclosed.forest.unowned (enclosed.inside j inside) data)
    rw [same]
    exact enclosed.entries j inside va

/-- `alloc_page`: the page was not in use, and is no table. -/
theorem take (enclosed : Enclosed P who lent k₀ own₀ k own) {pa : ℕ} {pool : σ}
    (call : env.alloc k = .ok pa pool) :
    ∃ f, pa = f * PGSIZE ∧ f ≠ 0 ∧ f < 2 ^ 44 ∧ f ∉ handed k₀.trace ∧ f ≠ trapSec ∧
    f ∈ handed (k.took pa pool).trace ∧
      ¬ TablePage (k.took pa pool) f ∧ Enclosed P who lent k₀ own₀ (k.took pa pool) own := by
  have image := P.image enclosed.ok call
  obtain ⟨f, rfl, ram, small, fresh, ok⟩ := P.fresh enclosed.ok call
  rw [page_div] at image
  have trace : handed (k.took (f * PGSIZE) pool).trace = f :: handed k.trace := by
    rw [Kernel.took, handed_alloc]
  have next : Enclosed P who lent k₀ own₀ (k.took (f * PGSIZE) pool) own := by
    refine enclosed.same ok rfl rfl rfl fun g taken => ?_
    rw [trace]
    exact List.mem_cons_of_mem _ taken
  refine ⟨f, rfl, ?_, small, fun taken => fresh (enclosed.taken f taken), image, ?_, ?_, next⟩
  · rintro rfl
    exact ram_ne_zero ram (Nat.zero_mul _)
  · rw [trace]
    exact List.mem_cons_self
  · rw [next.forest.tablePage_iff]
    rintro ⟨j, inside, named⟩
    exact fresh (enclosed.forest.taken j inside f named)

/-- `alloc_page` as a step of a program. -/
theorem allocPage (enclosed : Enclosed P who lent k₀ own₀ k own) {α : Type} {rest : ℕ → Exec (Kernel σ) α}
    {post : α → Kernel σ → Prop} (next : ∀ f pool, f < 2 ^ 44 → f ∉ handed k₀.trace → f ≠ trapSec →
      f ∈ handed (k.took (f * PGSIZE) pool).trace →
      ¬ TablePage (k.took (f * PGSIZE) pool) f → Enclosed P who lent k₀ own₀ (k.took (f * PGSIZE) pool) own →
      Yields (rest (f * PGSIZE)) (k.took (f * PGSIZE) pool) post) :
    Yields (env.allocPage >>= rest) k post := by
  cases call : env.alloc k with
  | error e pool =>
    have stops : env.allocPage k = .error e { k with pool := pool } := by rw [PageEnv.allocPage, call]
    exact Ensures.fails stops trivial
  | ok pa pool =>
    obtain ⟨f, rfl, _, small, fresh, image, inUse, data, enclosed'⟩ := enclosed.take call
    refine Ensures.step ?_ (next f pool small fresh image inUse data enclosed')
    rw [PageEnv.allocPage, call]

/-- `user_vm_map` of one page. -/
theorem mapPage (enclosed : Enclosed P who lent k₀ own₀ k own) (member : c ∈ who) {va : ℕ}
    (aligned : va % PGSIZE = 0) (word : va < WORD) (pa perm : ℕ) (granted : va < MAXVA →
      Granted trapSec lent k₀ va (PA2PTE pa ||| perm ||| PTE_V)) :
    Yields (userVmMap env (k.procs c).pagetable va PGSIZE pa perm) k fun _ k' => ∃ own',
    Enclosed P who lent k₀ own₀ k' own' ∧
      Builds P.toPages c k own k' own' ∧ k'.procs = k.procs ∧
      (∀ f, ¬ TablePage k f → f ∈ handed k.trace → ¬ TablePage k' f) ∧
      ∀ j, HasSpace k j → ∀ va', pteOf k' j va' =
        if j = c ∧ pageOf va' = pageOf va then PA2PTE pa ||| perm ||| PTE_V else pteOf k j va' := by
  have inside := enclosed.inside c member
  rw [Model.userVmMap, mapPages_roundsFor env _ _ _ word, roundsFor, if_pos aligned, roundDown_self aligned]
  have loop : Yields (mapPagesLoop env (k.procs c).pagetable perm 1 va pa) k fun done k' =>
      done = true ∧ va < MAXVA ∧
      ∃ own₁, Grafts P.toPages (rootOf k c) k (own c) k' own₁ ∧
      ∀ va', translate k'.mem (rootOf k c) va' = if pageOf va' = pageOf va then PA2PTE pa ||| perm ||| PTE_V
      else pteOf k c va' := by
    have site : Site P.toPages k ((k.procs c).pagetable / PGSIZE) (own c) :=
      enclosed.forest.site enclosed.ok inside
    apply site.mapRound (trivialStops env) (fun _ _ => trivial) (fun _ _ => trivial)
    intro k' own₁ _ high _ grafts ptes
    exact ⟨rfl, high, own₁, grafts, ptes⟩
  apply Ensures.bind loop
  rintro _ k' ⟨rfl, high, own₁, grafts, entries⟩
  obtain ⟨builds, others⟩ := enclosed.forest.graft inside grafts
  have self : ∀ va', pteOf k' c va' = if pageOf va' = pageOf va then PA2PTE pa ||| perm ||| PTE_V
    else pteOf k c va' := fun va' => by
    rw [pteOf, builds.root]
    exact entries va'
  refine ⟨_, enclosed.graft member grafts fun va' => ?_, builds, grafts.procs, fun f data taken => ?_,
    fun j insideJ va' => ?_⟩
  · rw [self]
    split_ifs with page
    · exact fun _ => (granted high).congr page
    · exact enclosed.entries c member va'
  · rw [builds.forest.tablePage_iff]
    rintro ⟨j, insideJ, named⟩
    have old := (builds.hasSpace j).mp insideJ
    have unnamed := enclosed.forest.unowned old data
    by_cases here : j = c
    · subst here
      exact named (builds.data f taken unnamed)
    · rw [Function.update_of_ne here] at named
      exact named unnamed
  · by_cases here : j = c
    · subst here
      simpa using self va'
    · rw [if_neg fun both => here both.1]
      exact others j here insideJ va'

/-- `sys_user_allocate_page`. -/
theorem sysUserAllocatePage (enclosed : Enclosed P who lent k₀ own₀ k own) (member : k.current ∈ who)
    (ok : ProcOk (k.procs k.current) (pteOf k k.current)) :
    Yields (sysUserAllocatePage env) k fun _ k' => ∃ own', Enclosed P who lent k₀ own₀ k' own' := by
  rw [Model.sysUserAllocatePage]
  refine enclosed.allocPage fun f pool _ fresh image _ _ enclosed₁ => ?_
  refine Ensures.step (get_apply _) ?_
  refine Ensures.step (get_apply _) ?_
  -- both branches change fields of the caller and then map the page at the address they chose
  have finish : ∀ k₂ va, Enclosed P who lent k₀ own₀ k₂ own → va % PGSIZE = 0 → va < WORD → Yields (do
      userVmMap env ((← get).procs k.current).pagetable va PGSIZE (f * PGSIZE) (protToType true true false true)
      modify fun k' => Kernel.record k' (.grant k.current va)
      return va) k₂ fun _ k' => ∃ own', Enclosed P who lent k₀ own₀ k' own' := by
    intro k₂ va enclosed₂ aligned word
    refine Ensures.step (get_apply k₂) ?_
    refine Ensures.bind (enclosed₂.mapPage member aligned word _ _ fun _ =>
      granted_page (by decide) (by decide) (Or.inr ⟨fresh, image⟩)) ?_
    rintro _ k₃ ⟨own', enclosed₃, _⟩
    exact ⟨own', enclosed₃.record trivial⟩
  have word : ∀ va, va ≤ STACK_PAGE → va < WORD := fun va below => lt_of_le_of_lt below (by decide)
  by_cases some : (k.procs k.current).userHeap.freePagesCount > 0
  · obtain ⟨n, count⟩ := Nat.exists_eq_succ_of_ne_zero some.ne'
    have few := ok.heap.count
    have last : decr32 (k.procs k.current).userHeap.freePagesCount = n := by
      rw [count]
      refine decr32_succ ?_
      simp only [MAX_HEAP_PAGES] at few
      omega
    have listed : n < (k.procs k.current).userHeap.freePagesCount := count ▸ Nat.lt_succ_self n
    have address : (k.procs k.current).userHeap.freePagesAddress n < WORD :=
      word _ ((ok.heap.range n listed).2.le.trans ok.top.2.2)
    change Yields (if (k.procs k.current).userHeap.freePagesCount > 0 then _ else _) _ _
    rw [if_pos some]
    refine enclosed₁.stepProc member (fun _ => ⟨rfl, rfl, rfl, rfl, rfl⟩) fun k₂ enclosed₂ => ?_
    have check : ∀ condition : Bool, Yields (assert condition "va < current->user_heap.heap_top") k₂ fun _
      k' => k' = k₂ := by
      rintro (_ | _)
      · trivial
      · exact rfl
    refine Ensures.bind (check _) ?_
    rintro _ _ rfl
    exact finish _ _ enclosed₂ (last ▸ ok.heap.aligned n listed) (last ▸ address)
  · change Yields (if (k.procs k.current).userHeap.freePagesCount > 0 then _ else _) _ _
    rw [if_neg some]
    refine enclosed₁.stepProc member (fun _ => ⟨rfl, rfl, rfl, rfl, rfl⟩) fun k₂ enclosed₂ => ?_
    refine enclosed₂.stepProc member (fun _ => ⟨rfl, rfl, rfl, rfl, rfl⟩) fun k₃ enclosed₃ => ?_
    exact finish k₃ _ enclosed₃ ok.top.1 (word _ ok.top.2.2)

/-- `sys_user_free_page` of a page of the heap. -/
theorem sysUserFreePage (enclosed : Enclosed P who lent k₀ own₀ k own) (member : k.current ∈ who) {va : ℕ}
    (ok : ProcOk (k.procs k.current) (pteOf k k.current)) (free : FreeOk (k.procs k.current).userHeap va)
    (page : has (pteOf k k.current va) PTE_V = true → PTE2PA (pteOf k k.current va) / PGSIZE ∈ lent) :
    Yields (sysUserFreePage env va) k fun _ k' => ∃ k₁, Enclosed P who lent k₀ own₀ k₁ own ∧
    Settles who lent k₁ k' := by
  have below : va < STACK_PAGE := ok.heap_below free.high
  have word : va + PGSIZE < WORD := by
    simp only [STACK_PAGE, USER_STACK_TOP, PGSIZE, WORD] at *
    omega
  rw [Model.sysUserFreePage]
  refine Ensures.step (get_apply k) ?_
  refine Ensures.step (get_apply k) ?_
  rw [userVmUnmap, unmap_rounds free.aligned word, roundDown_self free.aligned]
  have loop : Yields (userVmUnmapLoop env (k.procs k.current).pagetable true 1 va) k fun _ k₂ =>
      ∃ k₁, Enclosed P who lent k₀ own₀ k₁ own ∧ Settles who lent k₁ k₂ := by
    refine unmapRound fun k₂ round => ?_
    cases round with
    | skipped _ => exact ⟨k, enclosed, .refl k⟩
    | @released t pool found valid _ =>
      exact ⟨_, enclosed.setLeaf member found (fun nonzero => absurd rfl nonzero) fun valid =>
        absurd valid (by decide), .gave (page valid) pool⟩
  refine Ensures.bind loop ?_
  rintro _ k₂ ⟨k₁, enclosed₁, settles⟩
  refine yields_pushFreePage ?_
  exact ⟨k₁, enclosed₁, settles.trans ((Settles.setProc member ⟨rfl, rfl, rfl, rfl⟩ fun zombie =>
    zombie).trans (.record trivial))⟩

/-- A store fault that is handled. -/
theorem storeFault (enclosed : Enclosed P who lent k₀ own₀ k own) (member : k.current ∈ who) {stval : ℕ}
    (page : CowEntry k stval → PTE2PA (pteOf k k.current stval) / PGSIZE ∈ lent ∧
      has (pteOf k k.current stval) PTE_U = true ∧
      frameOf (pteOf k k.current stval) ∈ lent)
    (call : handleUserPageFault env CAUSE_STORE_PAGE_FAULT stval k = .ok () k') :
    ∃ k₁, Enclosed P who lent k₀ own₀ k₁ own ∧ Settles who lent k₁ k' := by
  have handled : (0 < stval ∧ stval < MAXVA) ∧ CowEntry k stval := by
    by_contra other
    obtain ⟨e, stops⟩ := storeFault_stops env fun range cow => other ⟨range, cow⟩
    rw [call] at stops
    cases stops
  obtain ⟨range, cow⟩ := handled
  obtain ⟨released, user, entry⟩ := page cow
  have inside := enclosed.inside _ member
  cases found : leafTable k.mem (rootOf k k.current) stval with
  | none =>
    have vacant := cow.1
    rw [leafTable_none found, not_has_zero] at vacant
    cases vacant
  | some t =>
    obtain ⟨alone, stops, _, copies⟩ := @storeFault_cow σ env k stval t range found cow
    by_cases shared : env.refs (PTE2PA (pteOf k k.current stval)) k > 1
    · cases take : env.alloc k with
      | error e pool =>
        rw [stops shared e pool take] at call
        cases call
      | ok pa pool =>
        obtain ⟨f, rfl, nonzero, small, fresh, image, inUse, data, enclosed₁⟩ := enclosed.take take
        have rooted := enclosed.forest.rooted k.current inside
        have apart : ∀ t, own k.current t ≠ none → t ≠ f := by
          rintro t named rfl
          exact named (enclosed₁.forest.unowned (enclosed₁.inside _ member) data)
        have table : own k.current t ≠ none := by
          rw [rooted.tables.leafTable_owner rooted.root found]
          exact Option.some_ne_none _
        -- the copied page is no table, so the slot is still the leaf entry of the address
        have enclosed₂ := enclosed₁.setPage fresh data (k.mem (PTE2PA (pteOf k k.current stval) / PGSIZE))
        have found₂ : leafTable ((k.took (f * PGSIZE) pool).setPage f
            (k.mem (PTE2PA (pteOf k k.current stval) / PGSIZE))).mem
            (rootOf k k.current) stval = some t := by
          rw [← found]
          refine rooted.tables.leafTable_congr (fun t r p owner _ => Function.update_of_ne (apart t ?_) _ _)
            rooted.root stval
          rw [owner]
          exact Option.some_ne_none _
        have access := copied_access (pteOf k k.current stval) f
        have granted : Granted trapSec lent k₀ stval (copied (pteOf k k.current stval) f) := by
          refine ⟨Or.inl (access.2.1.trans user), fun _ => ?_⟩
          rw [frameOf_copied]
          exact Or.inr ⟨fresh, image⟩
        have enclosed₃ := enclosed₂.setLeaf member found₂ (fun _ => access.1.trans cow.1) fun _ => granted
        rw [copies shared f pool take nonzero (apart t table), PageEnv.pfree] at call
        split at call
        · obtain ⟨-, rfl⟩ := EStateM.Result.ok.inj call
          exact ⟨_, enclosed₃, .gave released _⟩
        · cases call
    · rw [alone shared] at call
      obtain ⟨-, rfl⟩ := EStateM.Result.ok.inj call
      have access := unshared_access (pteOf k k.current stval)
      have granted : Granted trapSec lent k₀ stval (unshared (pteOf k k.current stval)) := by
        refine ⟨Or.inl (access.2.1.trans user), fun _ => ?_⟩
        rw [frameOf_unshared]
        exact Or.inl entry
      exact ⟨_, enclosed.setLeaf member found (fun _ => access.1.trans cow.1) fun _ => granted, .refl _⟩

/-- `elf_alloc_mb`: the page was not in use, and is no table. -/
theorem elfAllocMb (enclosed : Enclosed P who lent k₀ own₀ k own) (member : c ∈ who) {va size : ℕ}
    (aligned : va % PGSIZE = 0) (word : va < WORD) :
    Yields (elfAllocMb env c va size) k fun dest k' => ∃ own', Enclosed P who lent k₀ own₀ k' own' ∧
      dest / PGSIZE ∉ handed k₀.trace ∧ ¬ TablePage k' (dest / PGSIZE) := by
  rw [Model.elfAllocMb]
  have check : ∀ condition : Bool, Yields (kassert condition "size < PGSIZE") k fun _ k' => k = k' := by
    rintro (_ | _)
    · trivial
    · exact rfl
  refine Ensures.bind (check _) ?_
  rintro _ _ rfl
  refine enclosed.allocPage fun f pool _ fresh image inUse data enclosed₁ => ?_
  by_cases null : f * PGSIZE = 0
  · rw [if_pos null]
    trivial
  rw [if_neg null, page_div]
  refine Ensures.step (modify_apply _ _) ?_
  refine Ensures.step (get_apply _) ?_
  have enclosed₂ := enclosed₁.setPage fresh data fun _ => 0
  have data₂ : ¬ TablePage ((k.took (f * PGSIZE) pool).setPage f fun _ => 0) f := by
    rw [enclosed₂.forest.tablePage_iff]
    exact fun table => data ((enclosed₁.forest.tablePage_iff f).mpr table)
  refine Ensures.bind (enclosed₂.mapPage member aligned word _ _ fun _ =>
    granted_page (by decide) (by decide) (Or.inr ⟨fresh, image⟩)) ?_
  rintro _ k' ⟨own', enclosed', _, _, still, _⟩
  refine ⟨own', enclosed', ?_, ?_⟩
  · rwa [page_div]
  · rw [page_div]
    exact still f data₂ inUse

/-- Loading a segment. -/
theorem loadSegment (enclosed : Enclosed P who lent k₀ own₀ k own) (member : c ∈ who) {file : HostFile}
    {ph : ProgHeader} (aligned : ph.vaddr % PGSIZE = 0) (word : ph.vaddr < WORD)
    (call : loadSegment env c file ph k = .ok none k') :
    ∃ own', Enclosed P who lent k₀ own₀ k' own' := by
  obtain ⟨dest, k₁, type, _, inner, _, _, rfl⟩ := loadSegment_none call
  obtain ⟨own₁, enclosed₁, fresh, data⟩ := (enclosed.elfAllocMb member aligned word).of_ok inner
  exact ⟨own₁, (enclosed₁.setPage fresh data _).setProc member fun _ => ⟨rfl, rfl, rfl, rfl, rfl⟩⟩

/-- Loading segments that start on page boundaries. -/
theorem loads (enclosed : Enclosed P who lent k₀ own₀ k own) (member : c ∈ who) {file : HostFile}
    {segments : List (ProgHeader × ℕ)} (loads : Loads env c file k segments k')
    (aligned : ∀ s ∈ segments, s.1.vaddr % PGSIZE = 0 ∧ s.1.vaddr < WORD) :
    ∃ own', Enclosed P who lent k₀ own₀ k' own' := by
  induction loads generalizing own with
  | nil k => exact ⟨own, enclosed⟩
  | cons call _ ih =>
    obtain ⟨boundary, word⟩ := aligned _ List.mem_cons_self
    obtain ⟨own₁, enclosed₁⟩ := enclosed.loadSegment member boundary word call
    exact ih enclosed₁ fun s later => aligned s (List.mem_cons_of_mem _ later)

/-- `load_bincode_from_host_elf` of a file whose segments start on page boundaries. -/
theorem load (enclosed : Enclosed P who lent k₀ own₀ k own) (member : c ∈ who) {file : HostFile}
    (aligned : ∀ ehdr, elfInit file = .ok ehdr → AlignedSegments file ehdr)
    (call : loadBincodeFromHostElf env c file k = .ok () k') : ∃ own', Enclosed P who lent k₀ own₀ k' own' := by
  rw [loadBincodeFromHostElf] at call
  cases init : elfInit file with
  | error status =>
    rw [init] at call
    cases call
  | ok ehdr =>
    rw [init] at call
    obtain ⟨status, k₁, load, rest⟩ := bind_eq_ok.mp call
    by_cases failed : status ≠ .EL_OK
    · rw [if_pos failed] at rest
      cases rest
    rw [if_neg failed] at rest
    obtain ⟨-, rfl⟩ := EStateM.Result.ok.inj rest
    rw [not_not.mp failed] at load
    obtain ⟨loads, headers⟩ := elfLoadLoop_ok ehdr.phnum 0 load
    have boundaries : ∀ s ∈ loadedSegments env c file ehdr ehdr.phnum 0 k, s.1.vaddr % PGSIZE = 0 ∧
      s.1.vaddr < WORD := by
      intro s listed
      have header := headers ▸ List.mem_map_of_mem (f := Prod.fst) listed
      refine ⟨?_, loadHeaders_word header⟩
      obtain ⟨inside, type⟩ := List.mem_filter.mp header
      obtain ⟨i, below, same⟩ := List.mem_map.mp inside
      have range := List.mem_range'_1.mp below
      rw [← same] at type ⊢
      exact aligned ehdr init i (by omega) (of_decide_eq_true type)
    obtain ⟨own₁, enclosed₁⟩ := enclosed.loads member loads boundaries
    exact ⟨own₁, enclosed₁.setProc member fun _ => ⟨rfl, rfl, rfl, rfl, rfl⟩⟩

end Enclosed

end Pke.Proofs
