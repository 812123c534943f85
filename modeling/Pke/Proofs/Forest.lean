import Pke.Proofs.HeapRuns

/-! # The page tables of all processes

`Forest` says that every process has a page table of its own: its tables are in use and reached from
its root, and no page is a table of two processes. Nothing is said about the pages that leaf entries
map. A call that works on one process keeps it, if it leaves the tables of the others alone;
`Builds` is what such a call does that only adds tables.
-/

namespace Pke.Proofs

open Pke.Lib Pke.Model

variable {σ : Type} {env : PageEnv σ} {trapSec : ℕ}

/-- The tables of each process, by an owner function for each of them. -/
structure Forest (k : Kernel σ) (own : ℕ → Owner) : Prop where
  rooted : ∀ pid, HasSpace k pid → Rooted k.mem (rootOf k pid) (own pid)
  taken : ∀ pid, HasSpace k pid → ∀ t, own pid t ≠ none → t ∈ handed k.trace
  apart : ∀ pid pid', HasSpace k pid → HasSpace k pid' → pid ≠ pid' → ∀ t, own pid t ≠ none → own pid' t = none

/-- A page is a table of some process. -/
def TablePage (k : Kernel σ) (f : ℕ) : Prop := ∃ pid, HasSpace k pid ∧ IsTable k.mem (rootOf k pid) f

/-- Pages that are no tables decide no translation. -/
private theorem Tables.translate_keep {mem mem' : ℕ → ℕ → ℕ} {own : Owner} {r : ℕ} (tables : Tables mem own)
    (root : own r = some (r, [])) (same : ∀ t, own t ≠ none → mem' t = mem t) (va : ℕ) :
    translate mem' r va = translate mem r va := by
  have named : ∀ t q, own t = some q → mem' t = mem t :=
    fun t q owner => same t (by rw [owner]; exact Option.some_ne_none q)
  have table : leafTable mem' r va = leafTable mem r va :=
    tables.leafTable_congr (fun t r' p owner _ => named t _ owner) root va
  rw [translate, translate, table]
  cases found : leafTable mem r va with
  | none => rfl
  | some t => exact congrFun (named t _ (tables.leafTable_owner root found)) _

namespace Forest

variable {k k' : Kernel σ} {own : ℕ → Owner} {pid : ℕ}

theorem site {P : Pages env trapSec} (forest : Forest k own) (ok : P.Ok k) (inside : HasSpace k pid) :
    Site P k (rootOf k pid) (own pid) :=
  ⟨ok, (forest.rooted pid inside).tables, (forest.rooted pid inside).root, forest.taken pid inside⟩

/-- A page that is no table has no owner. -/
theorem unowned (forest : Forest k own) (inside : HasSpace k pid) {f : ℕ} (data : ¬ TablePage k f) :
    own pid f = none := by
  by_contra named
  exact data ⟨pid, inside, ((forest.rooted pid inside).isTable_iff f).mpr named⟩

/-- Unchanged tables translate as before. -/
theorem samePte (forest : Forest k own) (inside : HasSpace k pid) (root : rootOf k' pid = rootOf k pid)
    (same : ∀ t, own pid t ≠ none → k'.mem t = k.mem t) (va : ℕ) : pteOf k' pid va = pteOf k pid va := by
  rw [pteOf, pteOf, root]
  exact (forest.rooted pid inside).tables.translate_keep (forest.rooted pid inside).root same va

/-- A change of the tables of one process. -/
theorem change (forest : Forest k own) {own₁ : Owner}
    (others : ∀ j, j ≠ pid → HasSpace k' j → HasSpace k j ∧ rootOf k' j = rootOf k j)
    (data : ∀ j, j ≠ pid → HasSpace k j → ∀ t, own j t ≠ none →
      own₁ t = none ∧ k'.mem t = k.mem t ∧ t ∈ handed k'.trace)
    (self : HasSpace k' pid → Rooted k'.mem (rootOf k' pid) own₁ ∧ ∀ t, own₁ t ≠ none → t ∈ handed k'.trace) :
    Forest k' (Function.update own pid own₁) := by
  constructor
  · intro j inside
    by_cases here : j = pid
    · subst here
      rw [Function.update_self]
      exact (self inside).1
    · obtain ⟨old, root⟩ := others j here inside
      rw [Function.update_of_ne here, root]
      exact (forest.rooted j old).keep fun t named => (data j here old t named).2.1
  · intro j inside t named
    by_cases here : j = pid
    · subst here
      rw [Function.update_self] at named
      exact (self inside).2 t named
    · rw [Function.update_of_ne here] at named
      exact (data j here (others j here inside).1 t named).2.2
  · intro i j insideI insideJ different t named
    by_cases first : i = pid
    · subst first
      rw [Function.update_self] at named
      rw [Function.update_of_ne different.symm]
      by_contra other
      exact named (data j different.symm (others j different.symm insideJ).1 t other).1
    · rw [Function.update_of_ne first] at named
      by_cases second : j = pid
      · subst second
        rw [Function.update_self]
        exact (data i first (others i first insideI).1 t named).1
      · rw [Function.update_of_ne second]
        exact forest.apart i j (others i first insideI).1 (others j second insideJ).1 different t named

/-- A change that leaves all tables alone; processes may lose their address space. -/
theorem same (forest : Forest k own) (mem : k'.mem = k.mem) (taken : ∀ f ∈ handed k.trace, f ∈ handed k'.trace)
    (spaces : ∀ j, HasSpace k' j → HasSpace k j ∧ rootOf k' j = rootOf k j) : Forest k' own := by
  constructor
  · intro j inside
    rw [mem, (spaces j inside).2]
    exact forest.rooted j (spaces j inside).1
  · exact fun j inside t named => taken t (forest.taken j (spaces j inside).1 t named)
  · exact fun i j insideI insideJ => forest.apart i j (spaces i insideI).1 (spaces j insideJ).1

theorem quiet (forest : Forest k own) (quiet : Quiet k k') : Forest k' own := by
  refine forest.same quiet.mem (fun f taken => quiet.trace ▸ taken) fun j inside => ⟨quiet.hasSpace inside, ?_⟩
  rw [rootOf, rootOf, (quiet.procs j).pagetable]

/-- Storing a leaf entry that is zero or valid. -/
theorem setLeaf (forest : Forest k own) (inside : HasSpace k pid) {va t pte : ℕ}
    (found : leafTable k.mem (rootOf k pid) va = some t) (leaf : pte ≠ 0 → has pte PTE_V = true) :
    Forest (k.setWord t (PX 0 va) pte) own ∧
      (∀ va', pteOf (k.setWord t (PX 0 va) pte) pid va' = if pageOf va' = pageOf va then pte
        else pteOf k pid va') ∧
      ∀ j, j ≠ pid → HasSpace k j → ∀ va', pteOf (k.setWord t (PX 0 va) pte) j va' = pteOf k j va' := by
  have rooted := forest.rooted pid inside
  have named := rooted.tables.leafTable_owner rooted.root found
  have table : own pid t ≠ none := by rw [named]; exact Option.some_ne_none _
  have elsewhere : ∀ j, j ≠ pid → HasSpace k j → ∀ t', own j t' ≠ none →
      (k.setWord t (PX 0 va) pte).mem t' = k.mem t' := by
    intro j other insideJ t' named'
    refine Function.update_of_ne ?_ _ _
    rintro rfl
    exact named' (forest.apart pid j inside insideJ other.symm t' table)
  refine ⟨?_, fun va' => ?_, fun j other insideJ => forest.samePte insideJ rfl (elsewhere j other insideJ)⟩
  · have changed : Forest (k.setWord t (PX 0 va) pte) (Function.update own pid (own pid)) := by
      refine forest.change (fun j _ insideJ => ⟨insideJ, rfl⟩) (fun j other insideJ t' named' => ?_) fun _ => ?_
      · exact ⟨forest.apart j pid insideJ inside other t' named', elsewhere j other insideJ t' named',
          forest.taken j insideJ t' named'⟩
      · exact ⟨rooted.setLeaf named rfl pte leaf, forest.taken pid inside⟩
    rwa [Function.update_eq_self] at changed
  · refine (rooted.tables.translate_setLeaf rooted.root rooted.root found pte).trans ?_
    simp only [true_and]
    rfl

end Forest

/-- The fields of a process by which its pages are found. -/
structure SameSpace (p q : Process) : Prop where
  pagetable : q.pagetable = p.pagetable
  trapframe : q.trapframe = p.trapframe
  kstack : q.kstack = p.kstack
  mappedInfo : q.mappedInfo = p.mappedInfo
  status : q.status = p.status

theorem SameSpace.refl (p : Process) : SameSpace p p := ⟨rfl, rfl, rfl, rfl, rfl⟩

theorem SameSpace.trans {p q r : Process} (first : SameSpace p q) (second : SameSpace q r) : SameSpace p r :=
  ⟨second.pagetable.trans first.pagetable, second.trapframe.trans first.trapframe,
    second.kstack.trans first.kstack, second.mappedInfo.trans first.mappedInfo,
    second.status.trans first.status⟩

/-- What building up the address space of process `c` does: every page that is taken becomes a table of it. -/
structure Builds (P : Pages env trapSec) (c : ℕ) (k : Kernel σ) (own : ℕ → Owner) (k' : Kernel σ)
    (own' : ℕ → Owner) :
    Prop where
  ok : P.Ok k'
  forest : Forest k' own'
  others : ∀ j, j ≠ c → k'.procs j = k.procs j
  space : SameSpace (k.procs c) (k'.procs c)
  tables : ∀ t, own c t ≠ none → own' c t ≠ none
  data : ∀ f ∈ handed k.trace, own c f = none → own' c f = none
  pages : ∃ frames : List ℕ, k'.trace = frames.map (fun f => .alloc (f * PGSIZE)) ++ k.trace ∧
    ∀ f ∈ frames, own' c f ≠ none

namespace Builds

variable {P : Pages env trapSec} {c : ℕ} {k k' k'' : Kernel σ} {own own' own'' : ℕ → Owner}

theorem refl (ok : P.Ok k) (forest : Forest k own) : Builds P c k own k own :=
  ⟨ok, forest, fun _ _ => rfl, .refl _, fun _ named => named, fun _ _ free => free, [], rfl, by simp⟩

/-- A change of pages and allocator that takes no page. -/
theorem same (ok : P.Ok k') (forest : Forest k' own) (procs : k'.procs = k.procs) (trace : k'.trace = k.trace) :
    Builds P c k own k' own :=
  ⟨ok, forest, fun j _ => by rw [procs], procs ▸ .refl _, fun _ named => named, fun _ _ free => free,
    [], trace, by simp⟩

theorem taken (builds : Builds P c k own k' own') {f : ℕ} (inside : f ∈ handed k.trace) :
    f ∈ handed k'.trace := by
  obtain ⟨frames, trace, _⟩ := builds.pages
  rw [trace]
  exact handed_allocs inside frames

theorem trans (first : Builds P c k own k' own') (second : Builds P c k' own' k'' own'') :
    Builds P c k own k'' own'' := by
  refine ⟨second.ok, second.forest, fun j other => (second.others j other).trans (first.others j other),
    first.space.trans second.space, fun t named => second.tables t (first.tables t named),
    fun f inside free => second.data f (first.taken inside) (first.data f inside free), ?_⟩
  obtain ⟨frames, trace, named⟩ := first.pages
  obtain ⟨frames', trace', named'⟩ := second.pages
  refine ⟨frames' ++ frames, by rw [trace', trace, List.map_append, List.append_assoc], fun f member => ?_⟩
  rcases List.mem_append.mp member with late | early
  · exact named' f late
  · exact second.tables f (named f early)

theorem root (builds : Builds P c k own k' own') (pid : ℕ) : rootOf k' pid = rootOf k pid := by
  rw [rootOf, rootOf]
  by_cases here : pid = c
  · rw [here, builds.space.pagetable]
  · rw [builds.others pid here]

theorem hasSpace (builds : Builds P c k own k' own') (pid : ℕ) : HasSpace k' pid ↔ HasSpace k pid := by
  rw [HasSpace, HasSpace]
  by_cases here : pid = c
  · rw [here, builds.space.pagetable, builds.space.status]
  · rw [builds.others pid here]

end Builds

section

variable {P : Pages env trapSec} {c : ℕ} {k k' : Kernel σ} {own : ℕ → Owner}

theorem Forest.keepFields (forest : Forest k own) {change : Process → Process}
    (keeps : ∀ p, (change p).pagetable = p.pagetable ∧ (change p).status = p.status) :
    Forest (k.setProc c change) own := by
  refine forest.same rfl (fun _ taken => taken) fun j inside => ⟨(hasSpace_setProc keeps).mp inside, ?_⟩
  rw [rootOf, rootOf, pagetable_setProc (keeps _).1]

/-- Changing other fields of a process. -/
theorem Forest.setProc (forest : Forest k own) (ok : P.Ok k) {change : Process → Process}
    (space : ∀ p, SameSpace p (change p)) : Builds P c k own (k.setProc c change) own ∧
      ∀ pid va, pteOf (k.setProc c change) pid va = pteOf k pid va := by
  refine ⟨⟨P.stable (k := k) rfl rfl rfl ok, forest.keepFields fun p => ⟨(space p).pagetable, (space p).status⟩,
    fun j other => Kernel.setProc_procs_of_ne _ _ _ other, ?_, fun _ named => named, fun _ _ free => free, [],
      rfl, by simp⟩,
    pteOf_setProc (space _).pagetable⟩
  · rw [Kernel.setProc_procs_self]
    exact space _

/-- Adding tables to the tree of a process. -/
theorem Forest.graft (forest : Forest k own) (inside : HasSpace k c) {own₁ : Owner}
    (grafts : Grafts P (rootOf k c) k (own c) k' own₁) : Builds P c k own k' (Function.update own c own₁) ∧
      ∀ j, j ≠ c → HasSpace k j → ∀ va, pteOf k' j va = pteOf k j va := by
  have root : ∀ j, rootOf k' j = rootOf k j := fun j => by rw [rootOf, rootOf, grafts.procs]
  have spaces : ∀ j, HasSpace k' j → HasSpace k j := fun j inside => by rwa [HasSpace, grafts.procs] at inside
  have elsewhere : ∀ j, j ≠ c → HasSpace k j → ∀ t, own j t ≠ none →
      own₁ t = none ∧ k'.mem t = k.mem t ∧ t ∈ handed k'.trace := by
    intro j other insideJ t named
    have old := forest.taken j insideJ t named
    obtain ⟨free, same⟩ := grafts.data t old (forest.apart j c insideJ inside other t named)
    exact ⟨free, same, grafts.taken t old⟩
  refine ⟨⟨grafts.site.ok, ?_, fun j _ => by rw [grafts.procs], grafts.procs ▸ .refl _, ?_, ?_, ?_⟩,
    fun j other insideJ => forest.samePte insideJ (root j) fun t named =>
      (elsewhere j other insideJ t named).2.1⟩
  · refine forest.change (fun j _ insideJ => ⟨spaces j insideJ, root j⟩) elsewhere fun _ => ?_
    rw [root c]
    exact ⟨grafts.rooted (forest.rooted c inside), grafts.site.taken⟩
  · rw [Function.update_self]
    exact grafts.tables
  · rw [Function.update_self]
    exact fun f taken free => (grafts.data f taken free).1
  · rw [Function.update_self]
    exact grafts.pages

/-- The loop of `map_pages` at any addresses: entries that were valid stay. -/
private theorem Site.mapRounds {dir perm : ℕ} : ∀ (n first pa : ℕ) (k : Kernel σ) (own : Owner),
    Site P k (dir / PGSIZE) own →
    Yields (mapPagesLoop env dir perm n first pa) k fun _ k' => ∃ own', Grafts P (dir / PGSIZE) k own k' own' ∧
      ∀ va, has (translate k.mem (dir / PGSIZE) va) PTE_V = true →
      translate k'.mem (dir / PGSIZE) va = translate k.mem (dir / PGSIZE) va := by
  intro n
  induction n with
  | zero =>
    intro first pa k own site
    exact ⟨own, .refl site, fun _ _ => rfl⟩
  | succ n ih =>
    intro first pa k own site
    apply site.mapRound (trivialStops env) (fun _ _ => trivial) (fun _ _ => trivial)
    intro k₁ own₁ _ _ vacant grafts₁ ptes₁
    have kept : ∀ va, has (translate k.mem (dir / PGSIZE) va) PTE_V = true →
        translate k₁.mem (dir / PGSIZE) va = translate k.mem (dir / PGSIZE) va := by
      intro va valid
      rw [ptes₁, if_neg]
      intro here
      rw [translate_congr here, vacant] at valid
      cases valid
    apply Ensures.mono (ih _ _ k₁ own₁ grafts₁.site)
    rintro _ k' ⟨own', grafts', same⟩
    refine ⟨own', grafts₁.trans grafts', fun va valid => ?_⟩
    rw [same va (by rwa [kept va valid]), kept va valid]

/-- `user_vm_map` at any address. -/
theorem Forest.userVmMap (forest : Forest k own) (ok : P.Ok k) (inside : HasSpace k c) (va size pa perm : ℕ) :
    Yields (userVmMap env (k.procs c).pagetable va size pa perm) k fun _ k' => ∃ own',
    Builds P c k own k' own' ∧
      k'.procs = k.procs ∧ (∀ j, j ≠ c → HasSpace k j → ∀ va', pteOf k' j va' = pteOf k j va') ∧
      ∀ va', has (pteOf k c va') PTE_V = true → pteOf k' c va' = pteOf k c va' := by
  rw [Model.userVmMap, mapPages]
  refine Ensures.bind (Site.mapRounds _ _ _ k (own c) (forest.site ok inside)) ?_
  rintro done k' ⟨own₁, grafts, kept⟩
  obtain ⟨builds, others⟩ := forest.graft inside grafts
  cases done with
  | false => trivial
  | true =>
    refine ⟨_, builds, grafts.procs, others, fun va' valid => ?_⟩
    rw [pteOf, builds.root]
    exact kept va' valid

/-- `user_vm_map` of one page: it was not mapped, and now is. -/
theorem Forest.mapPage (forest : Forest k own) (ok : P.Ok k) (inside : HasSpace k c) {va : ℕ}
    (aligned : va % PGSIZE = 0) (word : va < WORD) (pa perm : ℕ) :
    Yields (Model.userVmMap env (k.procs c).pagetable va PGSIZE pa perm) k fun _ k' => ∃ own',
    Builds P c k own k' own' ∧
      k'.procs = k.procs ∧ (∀ j, j ≠ c → HasSpace k j → ∀ va', pteOf k' j va' = pteOf k j va') ∧
      has (pteOf k c va) PTE_V = false ∧
        ∀ va', pteOf k' c va' = if pageOf va' = pageOf va then PA2PTE pa ||| perm ||| PTE_V
        else pteOf k c va' := by
  rw [Model.userVmMap, mapPages_roundsFor env _ _ _ word, roundsFor, if_pos aligned, roundDown_self aligned]
  have loop : Yields (mapPagesLoop env (k.procs c).pagetable perm 1 va pa) k fun done k' => done = true ∧
      ∃ own', Builds P c k own k' own' ∧ k'.procs = k.procs ∧
      (∀ j, j ≠ c → HasSpace k j → ∀ va', pteOf k' j va' = pteOf k j va') ∧ has (pteOf k c va) PTE_V = false ∧
      ∀ va', pteOf k' c va' = if pageOf va' = pageOf va then PA2PTE pa ||| perm ||| PTE_V
      else pteOf k c va' := by
    have site : Site P k ((k.procs c).pagetable / PGSIZE) (own c) := forest.site ok inside
    apply site.mapRound (trivialStops env) (fun _ _ => trivial) (fun _ _ => trivial)
    intro k' own₁ _ _ vacant grafts ptes
    obtain ⟨builds, others⟩ := forest.graft inside grafts
    refine ⟨rfl, _, builds, grafts.procs, others, vacant, fun va' => ?_⟩
    rw [pteOf, builds.root]
    exact ptes va'
  apply Ensures.bind loop
  rintro _ k' ⟨rfl, rest⟩
  exact rest

end

end Pke.Proofs
