import Pke.Proofs.PageTable
import Pke.Model.Kernel

/-! # Address spaces over an allocator

`Shape` says that the roots of the processes head disjoint trees of tables that the allocator handed out,
and that no process maps a page which is a table. `Supply` is what the page-table code needs from
`alloc_page`: a page that is not in use and that no process maps. `Space` is `Shape` with an intact
allocator, where every mapped page is one that the allocator handed out, or the page of the trap vector.
`Grown` is what a walk that adds tables leaves alone, and `Edited` what a store of a leaf entry does.
-/

namespace Pke.Proofs

open Pke.Lib Pke.Model

variable {σ : Type}

/-- The root table of a process. -/
def rootOf (k : Kernel σ) (pid : ℕ) : ℕ := (k.procs pid).pagetable / PGSIZE

/-- A process structure with an address space that can still be used. -/
def HasSpace (k : Kernel σ) (pid : ℕ) : Prop :=
  pid < NPROC ∧ (k.procs pid).pagetable ≠ 0 ∧ (k.procs pid).status ≠ .ZOMBIE

/-- The leaf entry of an address in a process. -/
def pteOf (k : Kernel σ) (pid va : ℕ) : ℕ := translate k.mem (rootOf k pid) va

/-- Some process maps the page. -/
def Mapped (k : Kernel σ) (f : ℕ) : Prop :=
  ∃ pid, HasSpace k pid ∧ ∃ va, has (pteOf k pid va) PTE_V = true ∧ frameOf (pteOf k pid va) = f

/-- The pages that `alloc_page` returned and that were not passed to `pfree` since. -/
def handed : List PageEvent → List ℕ
  | [] => []
  | e :: rest =>
    match e with
    | .alloc pa => pa / PGSIZE :: handed rest
    | .free pa => (handed rest).erase (pa / PGSIZE)
    | _ => handed rest

/-- Events that do not concern the allocator. -/
def Logs : PageEvent → Prop
  | .alloc _ => False
  | .free _ => False
  | _ => True

theorem handed_logs {e : PageEvent} (log : Logs e) (trace : List PageEvent) :
    handed (e :: trace) = handed trace := by
  cases e <;> simp_all [Logs, handed]

theorem handed_alloc (f : ℕ) (trace : List PageEvent) :
    handed (.alloc (f * PGSIZE) :: trace) = f :: handed trace := by
  rw [handed, Nat.mul_div_cancel _ (by decide)]

theorem ram_ne_zero {pa : ℕ} (ram : KERN_BASE ≤ pa) : pa ≠ 0 := by
  simp only [KERN_BASE] at ram
  omega

/-- What callers of `alloc_page` rely on. `Ok` says that the allocator is intact, and `Kept` are the pages
that a process may map after the given history. -/
structure Supply (env : PageEnv σ) (trapSec : ℕ) where
  Ok : Kernel σ → Prop
  Kept : List PageEvent → Set ℕ
  stable : ∀ {k k' : Kernel σ}, k'.pool = k.pool → k'.trace = k.trace → k'.tp = k.tp → Ok k → Ok k'
  logged : ∀ {k : Kernel σ} {e : PageEvent}, Logs e → Ok k → Ok (k.record e)
  share : ∀ {k : Kernel σ} (pa : ℕ), Ok k → Ok { k with pool := env.share pa k }
  alloc : ∀ {k : Kernel σ} {pa : ℕ} {pool : σ}, Ok k → (∀ f, Mapped k f → f ∈ Kept k.trace ∨ f = trapSec) →
    env.alloc k = .ok pa pool → ∃ f, pa = f * PGSIZE ∧ KERN_BASE ≤ f * PGSIZE ∧ f < 2 ^ 44 ∧
    f ∉ handed k.trace ∧ f ≠ trapSec ∧
      ¬ Mapped k f ∧ Ok (k.took pa pool)
  keptLogged : ∀ {e : PageEvent} (trace : List PageEvent), Logs e → Kept (e :: trace) = Kept trace
  keptAlloc : ∀ (f : ℕ) (trace : List PageEvent), insert f (Kept trace) ⊆ Kept (.alloc (f * PGSIZE) :: trace)

variable {env : PageEnv σ} {trapSec : ℕ}

/-- The tables of all address spaces. -/
structure Shape (trapSec : ℕ) (k : Kernel σ) (own : Owner) : Prop where
  tables : Tables k.mem own
  image : own trapSec = none
  reserved : ∀ f, own f ≠ none → f ∈ handed k.trace
  roots : ∀ pid, HasSpace k pid → own (rootOf k pid) = some (rootOf k pid, [])
  distinct : ∀ pid pid', HasSpace k pid → HasSpace k pid' → rootOf k pid = rootOf k pid' → pid = pid'
  leaves : ∀ pid, HasSpace k pid → ∀ va, has (pteOf k pid va) PTE_V = true →
    own (frameOf (pteOf k pid va)) = none ∧ frameOf (pteOf k pid va) < 2 ^ 44

/-- The address spaces over an intact allocator. -/
structure Space (S : Supply env trapSec) (k : Kernel σ) (own : Owner) : Prop extends Shape trapSec k own where
  ok : S.Ok k
  kept : ∀ f, Mapped k f → f ∈ S.Kept k.trace ∨ f = trapSec

/-- A new leaf entry that keeps the shape. -/
def LeafOk (own : Owner) (pte : ℕ) : Prop := has pte PTE_V = true → own (frameOf pte) = none ∧
    frameOf pte < 2 ^ 44

/-- The leaf entries with one of them replaced. -/
def editPte (ptes : ℕ → ℕ → ℕ) (pid va pte : ℕ) : ℕ → ℕ → ℕ :=
  fun pid' va' => if pid' = pid ∧ pageOf va' = pageOf va then pte else ptes pid' va'

theorem pteOf_congr {k : Kernel σ} {pid va va' : ℕ} (same : pageOf va = pageOf va') :
    pteOf k pid va = pteOf k pid va' :=
  translate_congr same

/-- Replacing a leaf entry changes the translation of one page of one process. -/
theorem pteOf_setLeaf {k : Kernel σ} {own : Owner} (tables : Tables k.mem own) {pid pid' va t : ℕ}
    (root : own (rootOf k pid) = some (rootOf k pid, []))
    (root' : own (rootOf k pid') = some (rootOf k pid', []))
    (distinct : rootOf k pid' = rootOf k pid → pid' = pid)
    (found : leafTable k.mem (rootOf k pid) va = some t) (pte va' : ℕ) :
    pteOf (k.setWord t (PX 0 va) pte) pid' va' = editPte (pteOf k) pid va pte pid' va' := by
  have store : pteOf (k.setWord t (PX 0 va) pte) pid' va' =
      if rootOf k pid' = rootOf k pid ∧ pageOf va' = pageOf va then pte else pteOf k pid' va' :=
    tables.translate_setLeaf root root' found pte
  rw [store, editPte]
  by_cases here : pid' = pid ∧ pageOf va' = pageOf va
  · rw [if_pos here, if_pos ⟨congrArg (rootOf k) here.1, here.2⟩]
  · rw [if_neg here, if_neg ?_]
    rintro ⟨sameRoot, samePage⟩
    exact here ⟨distinct sameRoot, samePage⟩

namespace Shape

variable {k k' : Kernel σ} {own : Owner}

/-- Process structures may lose their address space, and keep it otherwise. -/
theorem restrict (shape : Shape trapSec k own) (mem : k'.mem = k.mem)
    (trace : ∀ f ∈ handed k.trace, f ∈ handed k'.trace)
    (procs : ∀ pid, HasSpace k' pid → HasSpace k pid ∧ (k'.procs pid).pagetable = (k.procs pid).pagetable) :
    Shape trapSec k' own := by
  have same : ∀ pid, HasSpace k' pid → rootOf k' pid = rootOf k pid := fun pid inside => by
    rw [rootOf, rootOf, (procs pid inside).2]
  refine ⟨mem ▸ shape.tables, shape.image, fun f named => trace f (shape.reserved f named), ?_, ?_, ?_⟩
  · intro pid inside
    rw [same pid inside]
    exact shape.roots pid (procs pid inside).1
  · intro pid pid' inside inside' equal
    rw [same pid inside, same pid' inside'] at equal
    exact shape.distinct pid pid' (procs pid inside).1 (procs pid' inside').1 equal
  · intro pid inside va
    rw [pteOf, same pid inside, mem]
    exact shape.leaves pid (procs pid inside).1 va

/-- Storing into a page that is no table changes no translation. -/
theorem dataPte (shape : Shape trapSec k own) {f : ℕ} (free : own f = none) (words : ℕ → ℕ) {pid : ℕ}
    (inside : HasSpace k pid) (va : ℕ) : pteOf (k.setPage f words) pid va = pteOf k pid va :=
  shape.tables.translate_data free words (shape.roots pid inside)

theorem setData (shape : Shape trapSec k own) {f : ℕ} (free : own f = none) (words : ℕ → ℕ) :
    Shape trapSec (k.setPage f words) own where
  tables := shape.tables.congr fun _ _ _ named _ => Tables.update_data free words named
  image := shape.image
  reserved := shape.reserved
  roots := shape.roots
  distinct := shape.distinct
  leaves pid inside va := by
    rw [shape.dataPte free words inside]
    exact shape.leaves pid inside va

/-- Storing a leaf entry of a process. -/
theorem setLeaf (shape : Shape trapSec k own) {pid va t pte : ℕ} (inside : HasSpace k pid)
    (found : leafTable k.mem (rootOf k pid) va = some t) (leaf : LeafOk own pte) :
    Shape trapSec (k.setWord t (PX 0 va) pte) own ∧ ∀ pid', HasSpace k pid' →
      ∀ va', pteOf (k.setWord t (PX 0 va) pte) pid' va' = editPte (pteOf k) pid va pte pid' va' := by
  have root := shape.roots pid inside
  have named := shape.tables.leafTable_owner root found
  have ptes : ∀ pid', HasSpace k pid' → ∀ va', pteOf (k.setWord t (PX 0 va) pte) pid' va' =
    editPte (pteOf k) pid va pte pid' va' := by
    intro pid' inside' va'
    exact pteOf_setLeaf shape.tables root (shape.roots pid' inside')
      (shape.distinct pid' pid inside' inside) found pte va'
  refine ⟨⟨shape.tables.congr fun _ _ _ => Tables.update_leaf named rfl _, shape.image, shape.reserved,
    shape.roots, shape.distinct, ?_⟩, ptes⟩
  intro pid' inside' va'
  rw [ptes pid' inside' va', editPte]
  split_ifs with here
  · exact leaf
  · exact shape.leaves pid' inside' va'

end Shape

namespace Space

variable {S : Supply env trapSec} {k k' : Kernel σ} {own : Owner}

/-- A change of process structures that gives no process a new address space. -/
theorem restrict (space : Space S k own) (mem : k'.mem = k.mem) (pool : k'.pool = k.pool)
    (trace : k'.trace = k.trace) (tp : k'.tp = k.tp)
    (procs : ∀ pid, HasSpace k' pid → HasSpace k pid ∧ (k'.procs pid).pagetable = (k.procs pid).pagetable) :
    Space S k' own := by
  refine ⟨space.toShape.restrict mem (by rw [trace]; exact fun _ inside => inside) procs,
    S.stable pool trace tp space.ok, ?_⟩
  rw [trace]
  rintro f ⟨pid, inside, va, valid, frame⟩
  rw [pteOf, rootOf, (procs pid inside).2, mem] at valid frame
  exact space.kept f ⟨pid, (procs pid inside).1, va, valid, frame⟩

theorem record (space : Space S k own) {e : PageEvent} (log : Logs e) : Space S (k.record e) own := by
  refine ⟨space.toShape.restrict rfl ?_ fun pid inside => ⟨inside, rfl⟩, S.logged log space.ok, ?_⟩
  · intro f inside
    rwa [Kernel.record, handed_logs log]
  · rw [Kernel.record, S.keptLogged _ log]
    exact space.kept

theorem setData (space : Space S k own) {f : ℕ} (free : own f = none) (words : ℕ → ℕ) :
    Space S (k.setPage f words) own := by
  refine ⟨space.toShape.setData free words, S.stable (k := k) rfl rfl rfl space.ok, ?_⟩
  rintro g ⟨pid, inside, va, valid, frame⟩
  rw [space.dataPte free words inside] at valid frame
  exact space.kept g ⟨pid, inside, va, valid, frame⟩

theorem share (space : Space S k own) (pa : ℕ) : Space S { k with pool := env.share pa k } own :=
  ⟨space.toShape.restrict rfl (fun _ inside => inside) fun _ inside => ⟨inside, rfl⟩,
    S.share pa space.ok, space.kept⟩

/-- Storing a leaf entry whose page may be mapped. -/
theorem setLeaf (space : Space S k own) {pid va t pte : ℕ} (inside : HasSpace k pid)
    (found : leafTable k.mem (rootOf k pid) va = some t) (leaf : LeafOk own pte)
    (source : has pte PTE_V = true → frameOf pte ∈ S.Kept k.trace ∨ frameOf pte = trapSec) :
    Space S (k.setWord t (PX 0 va) pte) own ∧ ∀ pid', HasSpace k pid' →
      ∀ va', pteOf (k.setWord t (PX 0 va) pte) pid' va' = editPte (pteOf k) pid va pte pid' va' := by
  obtain ⟨shape, ptes⟩ := space.toShape.setLeaf inside found leaf
  refine ⟨⟨shape, S.stable (k := k) rfl rfl rfl space.ok, ?_⟩, ptes⟩
  rintro f ⟨pid', inside', va', valid, rfl⟩
  rw [ptes pid' inside' va', editPte] at valid ⊢
  split_ifs at valid ⊢ with here
  · exact source valid
  · exact space.kept _ ⟨pid', inside', va', valid, rfl⟩

end Space

/-- What growing page tables leaves alone: processes, existing tables and all translations. -/
structure Grown (S : Supply env trapSec) (k : Kernel σ) (own : Owner) (k' : Kernel σ)
    (own' : Owner) : Prop where
  space : Space S k' own'
  owners : ∀ f, own f ≠ none → own' f = own f
  data : ∀ f, own f = none → f ∈ handed k.trace ∨ Mapped k f → own' f = none
  procs : k'.procs = k.procs
  current : k'.current = k.current
  tp : k'.tp = k.tp
  entries : ∀ t, own t ≠ none → ∀ i, k.mem t i ≠ 0 → k'.mem t i = k.mem t i
  translations : ∀ r, own r = some (r, []) → ∀ va, translate k'.mem r va = translate k.mem r va
  trace : ∃ frames : List ℕ, k'.trace = frames.map (fun f => .alloc (f * PGSIZE)) ++ k.trace

theorem handed_allocs {f : ℕ} {trace : List PageEvent} (inside : f ∈ handed trace) (frames : List ℕ) :
    f ∈ handed (frames.map (fun f => PageEvent.alloc (f * PGSIZE)) ++ trace) := by
  induction frames with
  | nil => exact inside
  | cons g frames ih =>
    rw [List.map_cons, List.cons_append, handed_alloc]
    exact List.mem_cons_of_mem _ ih

private theorem Supply.kept_allocs (S : Supply env trapSec) {f : ℕ} {trace : List PageEvent}
    (inside : f ∈ S.Kept trace) (frames : List ℕ) :
    f ∈ S.Kept (frames.map (fun f => PageEvent.alloc (f * PGSIZE)) ++ trace) := by
  induction frames with
  | nil => exact inside
  | cons g frames ih => exact S.keptAlloc g _ (Set.mem_insert_of_mem _ ih)

namespace Grown

variable {S : Supply env trapSec} {k k' k'' : Kernel σ} {own own' own'' : Owner}

theorem refl (space : Space S k own) : Grown S k own k own :=
  ⟨space, fun _ _ => rfl, fun _ free _ => free, rfl, rfl, rfl, fun _ _ _ _ => rfl,
    fun _ _ _ => rfl, [], rfl⟩

theorem stillHanded (grown : Grown S k own k' own') {f : ℕ} (inside : f ∈ handed k.trace) :
    f ∈ handed k'.trace := by
  obtain ⟨frames, shape⟩ := grown.trace
  rw [shape]
  exact handed_allocs inside frames

theorem stillKept (grown : Grown S k own k' own') {f : ℕ} (inside : f ∈ S.Kept k.trace) :
    f ∈ S.Kept k'.trace := by
  obtain ⟨frames, shape⟩ := grown.trace
  rw [shape]
  exact S.kept_allocs inside frames

theorem root (grown : Grown S k own k' own') {r : ℕ} (named : own r = some (r, [])) : own' r = some (r, []) :=
  (grown.owners r (by rw [named]; simp)).trans named

theorem hasSpace (grown : Grown S k own k' own') {pid : ℕ} : HasSpace k' pid ↔ HasSpace k pid := by
  simp only [HasSpace, grown.procs]

theorem sameRoot (grown : Grown S k own k' own') (pid : ℕ) : rootOf k' pid = rootOf k pid := by
  simp only [rootOf, grown.procs]

theorem samePte (grown : Grown S k own k' own') (shape : Shape trapSec k own) {pid : ℕ}
    (inside : HasSpace k pid) (va : ℕ) : pteOf k' pid va = pteOf k pid va := by
  rw [pteOf, pteOf, grown.sameRoot, grown.translations _ (shape.roots pid inside)]

theorem mapped (grown : Grown S k own k' own') (shape : Shape trapSec k own)
    {f : ℕ} : Mapped k' f ↔ Mapped k f := by
  constructor
  · rintro ⟨pid, inside, va, valid, frame⟩
    rw [grown.hasSpace] at inside
    rw [grown.samePte shape inside] at valid frame
    exact ⟨pid, inside, va, valid, frame⟩
  · rintro ⟨pid, inside, va, valid, frame⟩
    rw [← grown.samePte shape inside] at valid frame
    exact ⟨pid, grown.hasSpace.mpr inside, va, valid, frame⟩

theorem trans (shape : Shape trapSec k own) (first : Grown S k own k' own')
    (second : Grown S k' own' k'' own'') :
    Grown S k own k'' own'' where
  space := second.space
  owners f named := by
    have same := first.owners f named
    rw [second.owners f (by rwa [same]), same]
  data f free inUse :=
    second.data f (first.data f free inUse) (inUse.imp first.stillHanded (first.mapped shape).mpr)
  procs := second.procs.trans first.procs
  current := second.current.trans first.current
  tp := second.tp.trans first.tp
  entries t named i nonzero := by
    have same := first.entries t named i nonzero
    rw [second.entries t (by rwa [first.owners t named]) i (by rwa [same]), same]
  translations r root va := by
    rw [second.translations r (first.root root) va, first.translations r root va]
  trace := by
    obtain ⟨frames, shape⟩ := first.trace
    obtain ⟨frames', shape'⟩ := second.trace
    exact ⟨frames' ++ frames, by rw [shape', shape, List.map_append, List.append_assoc]⟩

end Grown

/-- A page that the kernel got from the allocator and that is no table. -/
structure Held (S : Supply env trapSec) (k : Kernel σ) (own : Owner) (f : ℕ) : Prop where
  free : own f = none
  taken : f ∈ handed k.trace
  kept : f ∈ S.Kept k.trace
  small : f < 2 ^ 44

/-- The errors of `alloc_page` are among those allowed. -/
def AllocStops (env : PageEnv σ) (stop : Stop → Prop) : Prop := ∀ k e pool, env.alloc k = .error e pool → stop e

section

variable {S : Supply env trapSec} {k : Kernel σ} {own : Owner} {stop : Stop → Prop}

/-- `alloc_page` over an intact allocator. -/
theorem Space.alloc (space : Space S k own) (errors : AllocStops env stop) :
    Ensures env.allocPage k (fun pa k' => ∃ f pool, pa = f * PGSIZE ∧ KERN_BASE ≤ f * PGSIZE ∧
      f ∉ handed k.trace ∧
      f ≠ trapSec ∧ ¬ Mapped k f ∧ Held S k' own f ∧ k' = k.took pa pool ∧ Grown S k own k' own) stop := by
  rw [Ensures, PageEnv.allocPage]
  cases call : env.alloc k with
  | error e pool => exact errors k e pool call
  | ok pa pool =>
    obtain ⟨f, rfl, ram, small, free, image, unmapped, ok⟩ := S.alloc space.ok space.kept call
    have fresh : own f = none := by
      by_contra named
      exact free (space.reserved f named)
    have trace : (k.took (f * PGSIZE) pool).trace = .alloc (f * PGSIZE) :: k.trace := rfl
    have more : ∀ g ∈ handed k.trace, g ∈ handed (k.took (f * PGSIZE) pool).trace := fun g inside => by
      rw [trace, handed_alloc]
      exact List.mem_cons_of_mem _ inside
    have shape : Shape trapSec (k.took (f * PGSIZE) pool) own :=
      space.toShape.restrict rfl more fun pid inside => ⟨inside, rfl⟩
    refine ⟨f, pool, rfl, ram, free, image, unmapped, ⟨fresh, ?_, ?_, small⟩, rfl,
      ⟨⟨shape, ok, ?_⟩, fun _ _ => rfl, fun _ free _ => free, rfl, rfl, rfl, fun _ _ _ _ => rfl,
        fun _ _ _ => rfl, [f], rfl⟩⟩
    · rw [trace, handed_alloc]
      exact List.mem_cons_self
    · exact S.keptAlloc f _ (Set.mem_insert _ _)
    · intro g mapped
      exact (space.kept g mapped).imp_left fun inKept => S.keptAlloc f _ (Set.mem_insert_of_mem _ inKept)

/-- Hanging a page that `alloc_page` just returned into the tables. -/
theorem Grown.hang {k₁ : Kernel σ} (space : Space S k own) (grown : Grown S k own k₁ own) {pt r f i : ℕ}
    {p : List ℕ} (named : own pt = some (r, p)) (short : p.length < 2) (empty : k₁.mem pt i = 0)
    (fresh : own f = none) (small : f < 2 ^ 44) (image : f ≠ trapSec) (free : f ∉ handed k.trace)
    (taken : f ∈ handed k₁.trace) (unmapped : ¬ Mapped k f) :
    Grown S k own { k₁ with mem := Tables.hang k₁.mem pt i f }
    (Function.update own f (some (r, p ++ [i]))) := by
  have space₁ := grown.space
  have unmapped₁ : ¬ Mapped k₁ f := (grown.mapped space.toShape).not.mpr unmapped
  have owners : ∀ g, own g ≠ none → Function.update own f (some (r, p ++ [i])) g = own g := by
    intro g named
    refine Function.update_of_ne ?_ _ _
    rintro rfl
    exact named fresh
  have same : ∀ r', own r' = some (r', []) → ∀ va, translate (Tables.hang k₁.mem pt i f) r' va =
      translate k₁.mem r' va :=
    fun r' root va => space₁.tables.hang_translate named short fresh small empty root
  have ptes : ∀ pid, HasSpace k₁ pid → ∀ va, pteOf { k₁ with mem := Tables.hang k₁.mem pt i f } pid va =
    pteOf k₁ pid va :=
    fun pid inside va => same _ (space₁.roots pid inside) va
  have apart : ∀ g, g ∈ handed k.trace ∨ Mapped k g → g ≠ f := by
    rintro g inUse rfl
    exact inUse.elim free unmapped
  refine ⟨⟨⟨space₁.tables.hang_tables named short fresh small, ?_, ?_, ?_, space₁.distinct, ?_⟩, ?_,
    ?_⟩, owners, ?_, grown.procs, grown.current, grown.tp, ?_, ?_, grown.trace⟩
  · rw [Function.update_of_ne image.symm]
    exact space₁.image
  · intro g tableNow
    by_cases here : g = f
    · subst here
      exact taken
    · rw [Function.update_of_ne here] at tableNow
      exact space₁.reserved g tableNow
  · intro pid inside
    have root := space₁.roots pid inside
    have table : own (rootOf k₁ pid) ≠ none := by rw [root]; simp
    exact (owners _ table).trans root
  · intro pid inside va
    rw [ptes pid inside]
    intro valid
    obtain ⟨table, bound⟩ := space₁.leaves pid inside va valid
    refine ⟨?_, bound⟩
    rw [Function.update_of_ne ?_]
    · exact table
    · intro equal
      exact unmapped₁ ⟨pid, inside, va, valid, equal⟩
  · exact S.stable (k := k₁) rfl rfl rfl space₁.ok
  · rintro g ⟨pid, inside, va, valid, frame⟩
    rw [ptes pid inside] at valid frame
    exact space₁.kept g ⟨pid, inside, va, valid, frame⟩
  · intro g free' inUse
    rw [Function.update_of_ne (apart g inUse)]
    exact free'
  · intro t named j nonzero
    have nonzero₁ : k₁.mem t j ≠ 0 := by rwa [grown.entries t named j nonzero]
    rw [← grown.entries t named j nonzero]
    refine Tables.hang_other (fun same => named (same ▸ fresh)) ?_
    by_contra both
    push Not at both
    rw [both.1, both.2] at nonzero₁
    exact nonzero₁ empty
  · intro r' root va
    exact (same r' root va).trans (grown.translations r' root va)

theorem has_valid_or (w : ℕ) : has (w ||| PTE_V) PTE_V = true := by
  rw [has_valid, Nat.testBit_or]
  simp [PTE_V]

/-- One round of a walk that may add a table: it goes on in the table below, or in a new page that
it hangs into the empty entry. -/
theorem Tables.walkRound {k : Kernel σ} {own : Owner} (tables : Tables k.mem own) {va pt r n : ℕ} {p : List ℕ}
    (named : own pt = some (r, p)) (short : p.length < 2) {post : Option ℕ → Kernel σ → Prop} {took : ℕ →
      Kernel σ → Prop}
    (alloc : Ensures env.allocPage k (fun pa k' => ∃ f, pa = f * PGSIZE ∧ pa ≠ 0 ∧ f < 2 ^ 44 ∧ own f = none ∧
      k'.mem = k.mem ∧ took f k') stop)
    (down : has (k.mem pt (PX (n + 1) va)) PTE_V = true →
      Ensures (pageWalkLoop env va 0 true n (PTE2PA (k.mem pt (PX (n + 1) va)) / PGSIZE)) k post stop)
    (hang : ∀ k' f, took f k' → own f = none → f < 2 ^ 44 → k'.mem = k.mem → k'.mem pt (PX (n + 1) va) = 0 →
      has (Tables.hang k'.mem pt (PX (n + 1) va) f pt (PX (n + 1) va)) PTE_V = true →
      PTE2PA (Tables.hang k'.mem pt (PX (n + 1) va) f pt (PX (n + 1) va)) / PGSIZE = f →
      Ensures (pageWalkLoop env va 0 true n f)
      { k' with mem := Tables.hang k'.mem pt (PX (n + 1) va) f } post stop) :
    Ensures (pageWalkLoop env va 0 true (n + 1) pt) k post stop := by
  have level : 0 + n + 1 = n + 1 := by omega
  rw [pageWalkLoop, level]
  apply Ensures.step (get_apply k)
  by_cases valid : has (k.mem pt (PX (n + 1) va)) PTE_V = true
  · simp only [pteAt, if_pos valid]
    exact down valid
  · simp only [pteAt, if_neg valid, if_true]
    have empty : k.mem pt (PX (n + 1) va) = 0 := by
      by_contra nonzero
      exact valid (tables.below pt r p named short _ (px_lt _ va) nonzero).1
    apply Ensures.bind alloc
    rintro _ k' ⟨f, rfl, nonzero, small, free, mem, taken⟩
    have apart : pt ≠ f := by
      rintro rfl
      rw [free] at named
      cases named
    have empty' : k'.mem pt (PX (n + 1) va) = 0 := by rw [mem, empty]
    have frame : frameOf (f * 2 ^ 10 ||| PTE_V) = f := frameOf_or (by decide)
    rw [if_pos nonzero]
    refine Ensures.step (a := true) (t := k'.setWord pt (PX (n + 1) va) (f * 2 ^ 10 ||| PTE_V)) ?_ ?_
    · simp only [casPte, bind_apply, get_apply, pteAt, setPte, PA2PTE_page, empty', if_true]
      rfl
    · rw [if_pos rfl, Nat.mul_div_cancel f (show 0 < PGSIZE by decide)]
      apply Ensures.step (modify_apply _ _)
      apply hang k' f taken free small mem empty'
      · rw [Tables.hang_slot apart]
        exact has_valid_or _
      · rw [Tables.hang_slot apart, PTE2PA_page (by rw [frame]; exact small), frame]

/-- One round of a walk that may add a table: it goes on in the table below. -/
theorem Space.walkRound (errors : AllocStops env stop) (space : Space S k own) {va pt r n : ℕ} {p : List ℕ}
    (named : own pt = some (r, p)) (short : p.length < 2) {post : Option ℕ → Kernel σ → Prop}
    (next : ∀ k' own' pt', Grown S k own k' own' → own' pt' = some (r, p ++ [PX (n + 1) va]) →
      has (k'.mem pt (PX (n + 1) va)) PTE_V = true → PTE2PA (k'.mem pt (PX (n + 1) va)) / PGSIZE = pt' →
      Ensures (pageWalkLoop env va 0 true n pt') k' post stop) :
    Ensures (pageWalkLoop env va 0 true (n + 1) pt) k post stop := by
  have supply : Ensures env.allocPage k (fun pa k' => ∃ f, pa = f * PGSIZE ∧ pa ≠ 0 ∧ f < 2 ^ 44 ∧
      own f = none ∧
      k'.mem = k.mem ∧ (f ≠ trapSec ∧ f ∉ handed k.trace ∧ f ∈ handed k'.trace ∧ ¬ Mapped k f ∧
        Grown S k own k' own)) stop := by
    apply Ensures.mono (space.alloc errors)
    rintro _ _ ⟨f, pool, rfl, ram, free, image, unmapped, held, rfl, grown⟩
    exact ⟨f, rfl, ram_ne_zero ram, held.small, held.free, rfl, image, free, held.taken, unmapped, grown⟩
  apply space.tables.walkRound named short supply
  · intro valid
    obtain ⟨_, child⟩ := space.tables.down named short (px_lt _ va) valid
    exact next k own _ (.refl space) child valid rfl
  · rintro k' f ⟨image, free, taken, unmapped, grown⟩ fresh small mem empty valid entry
    have hung := grown.hang space (i := PX (n + 1) va) named short empty fresh small image free taken unmapped
    exact next _ _ f hung (Function.update_self ..) valid entry

/-- The range check of `page_walk`. -/
theorem rangeCheck {va : ℕ} (inside : 0 < va ∧ va < MAXVA) (k : Kernel σ) :
    kassert (decide (0 < va) && decide (va < MAXVA)) "va > 0 && va < MAXVA" k = .ok () k := by
  simp [kassert, inside.1, inside.2]

theorem rangeCheck_fails {va : ℕ} (outside : ¬ (0 < va ∧ va < MAXVA)) (k : Kernel σ) :
    kassert (decide (0 < va) && decide (va < MAXVA)) "va > 0 && va < MAXVA" k =
      .error (.kassertFailed "va > 0 && va < MAXVA") k := by
  rw [kassert, if_neg (by simpa using outside)]
  rfl

/-- `page_walk` with `alloc` set finds or makes the leaf table, and changes no translation. -/
theorem Space.walkAlloc (errors : AllocStops env stop) (space : Space S k own) {dir va : ℕ}
    (root : own (dir / PGSIZE) = some (dir / PGSIZE, []))
    (range : ¬ (0 < va ∧ va < MAXVA) → ∀ text, stop (.kassertFailed text)) :
    Ensures (pageWalk env dir va 0 true) k (fun slot? k' => 0 < va ∧ va < MAXVA ∧
      ∃ own' t, slot? = some (t, PX 0 va) ∧
      Grown S k own k' own' ∧ leafTable k'.mem (dir / PGSIZE) va = some t) stop := by
  by_cases inside : 0 < va ∧ va < MAXVA
  · rw [pageWalk]
    refine Ensures.step (rangeCheck inside k) ?_
    have walk : Ensures (pageWalkLoop env va 0 true 2 (dir / PGSIZE)) k (fun pt? k' => ∃ own' t, pt? = some t ∧
        Grown S k own k' own' ∧ leafTable k'.mem (dir / PGSIZE) va = some t) stop := by
      refine space.walkRound errors root (by simp) fun k₁ own₁ t₁ grown₁ owner₁ valid₁ entry₁ => ?_
      refine grown₁.space.walkRound errors owner₁ (by simp) fun k₂ own₂ t₂ grown₂ owner₂ valid₂ entry₂ => ?_
      have above : own₁ (dir / PGSIZE) ≠ none := by rw [grown₁.root root]; simp
      have keeps : k₂.mem (dir / PGSIZE) (PX 2 va) = k₁.mem (dir / PGSIZE) (PX 2 va) :=
        grown₂.entries _ above _ (Tables.valid_ne_zero valid₁)
      refine ⟨own₂, t₂, rfl, grown₁.trans space.toShape grown₂, ?_⟩
      change has (k₁.mem (dir / PGSIZE) (PX 2 va)) PTE_V = true at valid₁
      change PTE2PA (k₁.mem (dir / PGSIZE) (PX 2 va)) / PGSIZE = t₁ at entry₁
      change has (k₂.mem t₁ (PX 1 va)) PTE_V = true at valid₂
      change PTE2PA (k₂.mem t₁ (PX 1 va)) / PGSIZE = t₂ at entry₂
      simp only [leafTable, keeps, valid₁, entry₁, valid₂, entry₂, if_true]
    refine Ensures.bind walk ?_
    rintro _ k' ⟨own', t, rfl, grown, found⟩
    exact ⟨inside.1, inside.2, own', t, rfl, grown, found⟩
  · exact Ensures.fails (rangeCheck_fails inside k) (range inside _)

/-- `page_walk` without `alloc` reads the path. -/
theorem pageWalk_read (env : PageEnv σ) (dir va : ℕ) (k : Kernel σ) :
    pageWalk env dir va 0 false k =
      if 0 < va ∧ va < MAXVA then .ok ((leafTable k.mem (dir / PGSIZE) va).map fun t => (t, PX 0 va)) k
      else .error (.kassertFailed "va > 0 && va < MAXVA") k := by
  by_cases inside : 0 < va ∧ va < MAXVA
  · rw [pageWalk, bind_of_ok (rangeCheck inside k), if_pos inside]
    by_cases top : has (k.mem (dir / PGSIZE) (PX 2 va)) PTE_V = true
    · by_cases middle : has (k.mem (PTE2PA (k.mem (dir / PGSIZE) (PX 2 va)) / PGSIZE) (PX 1 va)) PTE_V = true
      · simp [pageWalkLoop, bind_apply, pteAt, top, middle, leafTable]
      · simp [pageWalkLoop, bind_apply, pteAt, top, middle, leafTable]
    · simp [pageWalkLoop, bind_apply, pteAt, top, leafTable]
  · rw [pageWalk, bind_of_error (rangeCheck_fails inside k), if_neg inside]

/-- A kernel step that only works on page tables: afterwards the leaf entries are `ptes`. -/
structure Edited (S : Supply env trapSec) (k : Kernel σ) (own : Owner) (k' : Kernel σ) (own' : Owner)
    (ptes : ℕ → ℕ → ℕ) : Prop where
  space : Space S k' own'
  data : ∀ f, own f = none → f ∈ handed k.trace → own' f = none
  procs : k'.procs = k.procs
  current : k'.current = k.current
  tp : k'.tp = k.tp
  trace : ∃ frames : List ℕ, k'.trace = frames.map (fun f => .alloc (f * PGSIZE)) ++ k.trace
  ptes : ∀ pid, HasSpace k pid → ∀ va, pteOf k' pid va = ptes pid va

theorem Edited.hasSpace {k' : Kernel σ} {own' : Owner} {ptes : ℕ → ℕ → ℕ} (edited : Edited S k own k' own' ptes)
    {pid : ℕ} : HasSpace k' pid ↔ HasSpace k pid := by
  simp only [HasSpace, edited.procs]

theorem Edited.stillHanded {k' : Kernel σ} {own' : Owner} {ptes : ℕ → ℕ → ℕ}
    (edited : Edited S k own k' own' ptes) {f : ℕ} (inside : f ∈ handed k.trace) : f ∈ handed k'.trace := by
  obtain ⟨frames, shape⟩ := edited.trace
  rw [shape]
  exact handed_allocs inside frames

theorem Edited.stillKept {k' : Kernel σ} {own' : Owner} {ptes : ℕ → ℕ → ℕ}
    (edited : Edited S k own k' own' ptes) {f : ℕ} (inside : f ∈ S.Kept k.trace) : f ∈ S.Kept k'.trace := by
  obtain ⟨frames, shape⟩ := edited.trace
  rw [shape]
  exact S.kept_allocs inside frames

/-- A walk that adds tables, and then a store into the leaf entry it found. -/
theorem Grown.setLeaf {k₁ : Kernel σ} {own₁ : Owner} (grown : Grown S k own k₁ own₁) (space : Space S k own)
    {pid va t pte : ℕ} (inside : HasSpace k pid) (found : leafTable k₁.mem (rootOf k pid) va = some t)
    (leaf : LeafOk own₁ pte)
    (source : has pte PTE_V = true → frameOf pte ∈ S.Kept k.trace ∨ frameOf pte = trapSec) :
    Edited S k own (k₁.setWord t (PX 0 va) pte) own₁ (editPte (pteOf k) pid va pte) := by
  have found₁ : leafTable k₁.mem (rootOf k₁ pid) va = some t := by rw [grown.sameRoot]; exact found
  obtain ⟨stored, ptes⟩ := grown.space.setLeaf (grown.hasSpace.mpr inside) found₁ leaf fun valid =>
    (source valid).imp_left grown.stillKept
  refine ⟨stored, fun f free taken => grown.data f free (Or.inl taken), grown.procs, grown.current, grown.tp,
    grown.trace, ?_⟩
  intro pid' inside' va'
  rw [ptes pid' (grown.hasSpace.mpr inside') va', editPte, editPte]
  split_ifs with here
  · rfl
  · exact grown.samePte space.toShape inside' va'

theorem roundDown_self {va : ℕ} (aligned : va % PGSIZE = 0) : ROUNDDOWN va PGSIZE = va := by
  simp only [ROUNDDOWN, PGSIZE] at *
  omega

theorem roundDown_last {va : ℕ} (aligned : va % PGSIZE = 0) (word : va < WORD) :
    ROUNDDOWN ((va + PGSIZE + WORD - 1) % WORD) PGSIZE = va := by
  simp only [ROUNDDOWN, PGSIZE, WORD] at *
  omega

theorem frameOf_flags {f perm : ℕ} (flags : perm < 2 ^ 10) : frameOf (f * 2 ^ 10 ||| perm ||| PTE_V) = f := by
  rw [Nat.lor_assoc]
  exact frameOf_or (Nat.or_lt_two_pow flags (by decide))

/-- `user_vm_map` of one aligned page into a process: the page was not mapped, and now is. -/
theorem Space.mapPage (errors : AllocStops env stop) (space : Space S k own) {pid va f perm : ℕ}
    (inside : HasSpace k pid) (aligned : va % PGSIZE = 0) (word : va < WORD) (flags : perm < 2 ^ 10)
    (small : f < 2 ^ 44) (free : own f = none) (source : f ∈ S.Kept k.trace ∨ f = trapSec)
    (inUse : f = trapSec ∨ f ∈ handed k.trace ∨ Mapped k f)
    (range : ¬ (0 < va ∧ va < MAXVA) → ∀ text, stop (.kassertFailed text))
    (taken : has (pteOf k pid va) PTE_V = true → ∀ text, stop (.panic text)) :
    Ensures (userVmMap env (k.procs pid).pagetable va PGSIZE (f * PGSIZE) perm)
      k (fun _ k' => 0 < va ∧ va < MAXVA ∧ has (pteOf k pid va) PTE_V = false ∧
      ∃ own', Edited S k own k' own' (editPte (pteOf k) pid va (f * 2 ^ 10 ||| perm ||| PTE_V))) stop := by
  rw [userVmMap, mapPages, roundDown_self aligned, roundDown_last aligned word, if_pos le_rfl, Nat.sub_self]
  have frame : frameOf (f * 2 ^ 10 ||| perm ||| PTE_V) = f := frameOf_flags flags
  have loop : Ensures (mapPagesLoop env (k.procs pid).pagetable perm 1 va (f * PGSIZE)) k
      (fun done k' => done = true ∧
      0 < va ∧ va < MAXVA ∧ has (pteOf k pid va) PTE_V = false ∧ ∃ own', Edited S k own k' own'
        (editPte (pteOf k) pid va (f * 2 ^ 10 ||| perm ||| PTE_V))) stop := by
    rw [mapPagesLoop]
    refine Ensures.bind (space.walkAlloc errors (space.roots pid inside) range) ?_
    rintro _ k₁ ⟨low, high, own₁, t, rfl, grown, found⟩
    have entry : k₁.mem t (PX 0 va) = pteOf k pid va := by
      rw [← grown.samePte space.toShape inside, pteOf, grown.sameRoot, translate, rootOf, found]
    refine Ensures.step (get_apply k₁) ?_
    simp only [pteAt, entry]
    by_cases valid : has (pteOf k pid va) PTE_V = true
    · rw [if_pos valid]
      exact taken valid _
    · rw [if_neg valid]
      have free₁ : own₁ f = none := by
        rcases inUse with rfl | inUse
        · exact grown.space.image
        · exact grown.data f free inUse
      have leaf : LeafOk own₁ (f * 2 ^ 10 ||| perm ||| PTE_V) := fun _ => by
        rw [frame]
        exact ⟨free₁, small⟩
      have stored := grown.setLeaf space inside found leaf fun _ => by rwa [frame]
      rw [PA2PTE_page]
      refine Ensures.step (modify_apply _ _) ?_
      exact ⟨rfl, low, high, by simpa using valid, own₁, stored⟩
  refine Ensures.bind loop ?_
  rintro _ k' ⟨rfl, rest⟩
  exact rest

end

end Pke.Proofs
