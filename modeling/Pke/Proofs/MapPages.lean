import Mathlib.Data.Finset.Card
import Pke.Proofs.PmmSupply

/-! # `map_pages` on one page table

`WellFormed` is the tree of tables below a root, in terms of the entries alone: `follow` walks down a path of
indices, and every table is reached by one path. It is the `Tables` invariant for an owner function that names
exactly the tables below the root. `Stocked` adds an allocator whose next pages are known; a walk that adds
tables takes one of them for every table that is missing.
-/

namespace Pke.Proofs

open Pke.Lib Pke.Model

variable {σ : Type} {env : PageEnv σ}

/-- The table that an entry leads to. -/
def tableBelow (mem : ℕ → ℕ → ℕ) (t i : ℕ) : Option ℕ :=
  if i < 512 ∧ has (mem t i) PTE_V = true then some (PTE2PA (mem t i) / PGSIZE) else none

/-- The table that a path of indices leads to. -/
def follow (mem : ℕ → ℕ → ℕ) (r : ℕ) (p : List ℕ) : Option ℕ := p.foldlM (tableBelow mem) r

/-- A page is a table of the tree below a root. -/
def IsTable (mem : ℕ → ℕ → ℕ) (r t : ℕ) : Prop := ∃ p, p.length ≤ 2 ∧ follow mem r p = some t

/-- A three-level page table: unused entries are zero, an entry above the leaves is a valid one for a physical
page, and every table is referenced once. -/
structure WellFormed (mem : ℕ → ℕ → ℕ) (r : ℕ) : Prop where
  above : ∀ p t, p.length < 2 → follow mem r p = some t → ∀ i < 512, mem t i ≠ 0 →
    has (mem t i) PTE_V = true ∧ frameOf (mem t i) < 2 ^ 44
  leaves : ∀ p t, p.length = 2 → follow mem r p = some t → ∀ i < 512, mem t i ≠ 0 → has (mem t i) PTE_V = true
  once : ∀ p p' t, p.length ≤ 2 → p'.length ≤ 2 → follow mem r p = some t → follow mem r p' = some t → p = p'

theorem follow_snoc (mem : ℕ → ℕ → ℕ) (r : ℕ) (p : List ℕ) (i : ℕ) :
    follow mem r (p ++ [i]) = (follow mem r p).bind fun t => tableBelow mem t i := by
  simp [follow, List.foldlM_append]

theorem follow_two (mem : ℕ → ℕ → ℕ) (r va : ℕ) : follow mem r [PX 2 va, PX 1 va] = leafTable mem r va := by
  by_cases top : has (mem r (PX 2 va)) PTE_V = true
  · by_cases middle : has (mem (PTE2PA (mem r (PX 2 va)) / PGSIZE) (PX 1 va)) PTE_V = true
    · simp [follow, tableBelow, leafTable, px_lt, top, middle]
    · simp [follow, tableBelow, leafTable, px_lt, top, middle]
  · simp [follow, tableBelow, leafTable, px_lt, top]

/-- The owner function names exactly the tables below the root. -/
structure Rooted (mem : ℕ → ℕ → ℕ) (r : ℕ) (own : Owner) : Prop where
  tables : Tables mem own
  root : own r = some (r, [])
  reached : ∀ t r' p, own t = some (r', p) → r' = r ∧ follow mem r p = some t
  leaves : ∀ t p, own t = some (r, p) → p.length = 2 → ∀ i < 512, mem t i ≠ 0 → has (mem t i) PTE_V = true

/-- A path leads to the table that is named by it. -/
theorem Tables.follow_owner {mem : ℕ → ℕ → ℕ} {r : ℕ} {own : Owner} (tables : Tables mem own)
    (root : own r = some (r, [])) {p : List ℕ} {t : ℕ} (short : p.length ≤ 2)
    (reached : follow mem r p = some t) : own t = some (r, p) := by
  induction p using List.reverseRecOn generalizing t with
  | nil =>
    obtain rfl := Option.some.inj reached
    exact root
  | append_singleton p i ih =>
    rw [follow_snoc, Option.bind_eq_some_iff] at reached
    obtain ⟨parent, reached, below⟩ := reached
    rw [List.length_append, List.length_singleton] at short
    simp only [tableBelow] at below
    split_ifs at below with entry
    obtain rfl := Option.some.inj below
    exact (tables.down (ih (by omega) reached) (by omega) entry.1 entry.2).2

namespace Rooted

variable {mem : ℕ → ℕ → ℕ} {r : ℕ} {own : Owner}

theorem owner (rooted : Rooted mem r own) {p : List ℕ} {t : ℕ} (short : p.length ≤ 2)
    (reached : follow mem r p = some t) : own t = some (r, p) :=
  rooted.tables.follow_owner rooted.root short reached

theorem isTable_iff (rooted : Rooted mem r own) (t : ℕ) : IsTable mem r t ↔ own t ≠ none := by
  constructor
  · rintro ⟨p, short, reached⟩
    rw [rooted.owner short reached]
    exact Option.some_ne_none _
  · intro named
    obtain ⟨⟨r', p⟩, named⟩ := Option.ne_none_iff_exists'.mp named
    obtain ⟨rfl, reached⟩ := rooted.reached t r' p named
    exact ⟨p, rooted.tables.depth t _ p named, reached⟩

theorem wellFormed (rooted : Rooted mem r own) : WellFormed mem r where
  above p t short reached i index nonzero := by
    obtain ⟨valid, small, _⟩ := rooted.tables.below t r p (rooted.owner short.le reached) short i index nonzero
    exact ⟨valid, small⟩
  leaves p t length reached := rooted.leaves t p (rooted.owner length.le reached) length
  once p p' t short short' reached reached' := by
    have same := (rooted.owner short reached).symm.trans (rooted.owner short' reached')
    exact (Prod.mk.inj (Option.some.inj same)).2

end Rooted

/-- A well-formed table has an owner function. -/
theorem WellFormed.rooted {mem : ℕ → ℕ → ℕ} {r : ℕ} (formed : WellFormed mem r) : ∃ own, Rooted mem r own := by
  classical
  let own : Owner := fun t => if named : IsTable mem r t then some (r, named.choose) else none
  have iff : ∀ t r' p, own t = some (r', p) ↔ r' = r ∧ p.length ≤ 2 ∧ follow mem r p = some t := by
    intro t r' p
    by_cases named : IsTable mem r t
    · have chosen := named.choose_spec
      simp only [own, dif_pos named, Option.some.injEq, Prod.mk.injEq]
      constructor
      · rintro ⟨rfl, rfl⟩
        exact ⟨rfl, chosen⟩
      · rintro ⟨rfl, short, reached⟩
        exact ⟨rfl, formed.once _ _ t chosen.1 short chosen.2 reached⟩
    · simp only [own, dif_neg named, reduceCtorEq, false_iff]
      rintro ⟨-, reached⟩
      exact named ⟨p, reached⟩
  refine ⟨own, ⟨⟨?_, ?_⟩, (iff r r []).mpr ⟨rfl, by simp, rfl⟩, ?_, ?_⟩⟩
  · intro t r' p named
    exact ((iff t r' p).mp named).2.1
  · intro t r' p named short i index nonzero
    obtain ⟨rfl, _, reached⟩ := (iff t r' p).mp named
    obtain ⟨valid, small⟩ := formed.above p t short reached i index nonzero
    refine ⟨valid, small, (iff _ r' _).mpr ⟨rfl, ?_, ?_⟩⟩
    · rw [List.length_append, List.length_singleton]
      omega
    · rw [follow_snoc, reached, Option.bind_some, tableBelow, if_pos ⟨index, valid⟩, PTE2PA_page small]
  · intro t r' p named
    obtain ⟨rfl, _, reached⟩ := (iff t r' p).mp named
    exact ⟨rfl, reached⟩
  · intro t p named length
    exact formed.leaves p t length ((iff t r p).mp named).2.2

namespace Rooted

variable {mem : ℕ → ℕ → ℕ} {r t f i : ℕ} {own : Owner} {p : List ℕ}

/-- Hanging an empty page into an empty entry keeps every path. -/
theorem hang_follow (rooted : Rooted mem r own) (fresh : own f = none) (empty : mem t i = 0)
    {q : List ℕ} {t' : ℕ} (short : q.length ≤ 2) (reached : follow mem r q = some t') :
    follow (Tables.hang mem t i f) r q = some t' := by
  induction q using List.reverseRecOn generalizing t' with
  | nil => exact reached
  | append_singleton q j ih =>
    rw [follow_snoc, Option.bind_eq_some_iff] at reached ⊢
    obtain ⟨parent, reached, below⟩ := reached
    rw [List.length_append, List.length_singleton] at short
    have shorter : q.length ≤ 2 := by omega
    have named := rooted.owner shorter reached
    have apart : parent ≠ f := by
      rintro rfl
      rw [fresh] at named
      exact absurd named (by simp)
    have other : parent ≠ t ∨ j ≠ i := by
      by_contra both
      push Not at both
      obtain ⟨rfl, rfl⟩ := both
      simp [tableBelow, empty, not_has_zero] at below
    refine ⟨parent, ih shorter reached, ?_⟩
    rw [tableBelow, Tables.hang_other apart other]
    exact below

theorem hang (rooted : Rooted mem r own) (named : own t = some (r, p)) (short : p.length < 2) (index : i < 512)
    (empty : mem t i = 0) (fresh : own f = none) (small : f < 2 ^ 44) :
    Rooted (Tables.hang mem t i f) r (Function.update own f (some (r, p ++ [i]))) := by
  have notFresh : ∀ {t' q}, own t' = some q → t' ≠ f := by
    rintro t' q named rfl
    rw [fresh] at named
    exact absurd named (by simp)
  refine ⟨rooted.tables.hang_tables named short fresh small, ?_, ?_, ?_⟩
  · rw [Function.update_of_ne (notFresh rooted.root)]
    exact rooted.root
  · intro t' r' q owner
    by_cases here : t' = f
    · subst here
      rw [Function.update_self] at owner
      obtain ⟨rfl, rfl⟩ := Prod.mk.inj (Option.some.inj owner)
      have parent := rooted.hang_follow fresh empty short.le (rooted.reached t _ p named).2
      have frame : frameOf (t' * 2 ^ 10 ||| PTE_V) = t' := frameOf_or (by decide)
      refine ⟨rfl, ?_⟩
      rw [follow_snoc, parent, Option.bind_some, tableBelow, Tables.hang_slot (notFresh named),
        if_pos ⟨index, has_valid_or _⟩, PTE2PA_page (by rwa [frame]), frame]
    · rw [Function.update_of_ne here] at owner
      obtain ⟨rfl, reached⟩ := rooted.reached t' r' q owner
      exact ⟨rfl, rooted.hang_follow fresh empty (rooted.tables.depth t' _ q owner) reached⟩
  · intro t' q owner length j index' nonzero
    by_cases here : t' = f
    · subst here
      rw [Tables.hang_page] at nonzero
      exact absurd rfl nonzero
    · rw [Function.update_of_ne here] at owner
      have apart : t' ≠ t := by
        rintro rfl
        rw [named] at owner
        obtain ⟨_, rfl⟩ := Prod.mk.inj (Option.some.inj owner)
        omega
      rw [Tables.hang_other here (Or.inl apart)] at nonzero ⊢
      exact rooted.leaves t' q owner length j index' nonzero

/-- A change that leaves the tables above the leaves alone keeps every path. -/
theorem congr (rooted : Rooted mem r own) {mem' : ℕ → ℕ → ℕ}
    (above : ∀ t r' q, own t = some (r', q) → q.length < 2 → mem' t = mem t)
    (leaves : ∀ t q, own t = some (r, q) → q.length = 2 → ∀ j < 512, mem' t j ≠ 0 →
      has (mem' t j) PTE_V = true) :
    Rooted mem' r own := by
  have paths : ∀ q t', q.length ≤ 2 → follow mem r q = some t' → follow mem' r q = some t' := by
    intro q
    induction q using List.reverseRecOn with
    | nil =>
      intro t' _ reached
      exact reached
    | append_singleton q j ih =>
      intro t' short reached
      rw [List.length_append, List.length_singleton] at short
      rw [follow_snoc, Option.bind_eq_some_iff] at reached ⊢
      obtain ⟨parent, reached, below⟩ := reached
      refine ⟨parent, ih parent (by omega) reached, ?_⟩
      rw [tableBelow, above parent r q (rooted.owner (by omega) reached) (by omega)]
      exact below
  refine ⟨rooted.tables.congr above, rooted.root, ?_, leaves⟩
  intro t' r' q owner
  obtain ⟨rfl, reached⟩ := rooted.reached t' r' q owner
  exact ⟨rfl, paths q t' (rooted.tables.depth t' _ q owner) reached⟩

/-- A change of pages that are no tables keeps every path. -/
theorem keep (rooted : Rooted mem r own) {mem' : ℕ → ℕ → ℕ} (same : ∀ t, own t ≠ none → mem' t = mem t) :
    Rooted mem' r own := by
  have tables : ∀ t q, own t = some q → mem' t = mem t :=
    fun t q named => same t (by rw [named]; exact Option.some_ne_none q)
  refine rooted.congr (fun t r' q named _ => tables t _ named) fun t q named length j index nonzero => ?_
  rw [tables t _ named] at nonzero ⊢
  exact rooted.leaves t q named length j index nonzero

/-- Storing a leaf entry keeps every path. -/
theorem setLeaf (rooted : Rooted mem r own) (named : own t = some (r, p)) (length : p.length = 2) (pte : ℕ)
    (leaf : pte ≠ 0 → has pte PTE_V = true) :
    Rooted (Function.update mem t (Function.update (mem t) i pte)) r own := by
  apply rooted.congr
  · intro t' r' q other short
    exact Tables.update_leaf named length _ other short
  · intro t' q owner length' j index nonzero
    by_cases slot : t' = t ∧ j = i
    · obtain ⟨rfl, rfl⟩ := slot
      rw [Function.update_self, Function.update_self] at nonzero ⊢
      exact leaf nonzero
    · have same : Function.update mem t (Function.update (mem t) i pte) t' j = mem t' j := by
        by_cases here : t' = t
        · subst here
          rw [Function.update_self, Function.update_of_ne fun index => slot ⟨rfl, index⟩]
        · rw [Function.update_of_ne here]
      rw [same] at nonzero ⊢
      exact rooted.leaves t' q owner length' j index nonzero

/-- An entry that is not valid is zero. -/
theorem leaf_zero (rooted : Rooted mem r own) {va : ℕ} (invalid : has (translate mem r va) PTE_V = false) :
    translate mem r va = 0 := by
  cases found : leafTable mem r va with
  | none => rw [translate, found]
  | some t =>
    have named := rooted.tables.leafTable_owner rooted.root found
    rw [translate, found] at invalid ⊢
    by_contra nonzero
    rw [rooted.leaves t _ named rfl _ (px_lt 0 va) nonzero] at invalid
    exact absurd invalid (by decide)

end Rooted

/-- The next calls of `alloc_page` on a hart return these pages, in this order. -/
inductive Deals (env : PageEnv σ) (tp : ℕ) : σ → List ℕ → Prop
  | nil (pool : σ) : Deals env tp pool []
  | cons {pool pool' : σ} {f : ℕ} {frames : List ℕ} :
      (∀ k : Kernel σ, k.tp = tp → k.pool = pool → env.alloc k = .ok (f * PGSIZE) pool') →
      Deals env tp pool' frames → Deals env tp pool (f :: frames)

/-- The paths of the tables that translate `n` pages from page `q` on. -/
def pathsOf (q n : ℕ) : Finset (List ℕ) :=
  (Finset.range n).biUnion fun i => {[PX 2 ((q + i) * PGSIZE)],
    [PX 2 ((q + i) * PGSIZE), PX 1 ((q + i) * PGSIZE)]}

/-- The paths on which there is no table yet. -/
def missing (mem : ℕ → ℕ → ℕ) (r : ℕ) (paths : Finset (List ℕ)) : Finset (List ℕ) :=
  paths.filter fun p => follow mem r p = none

/-- If no table is lost, no more tables are missing than before. -/
theorem missing_subset {mem mem' : ℕ → ℕ → ℕ} {r : ℕ} {paths : Finset (List ℕ)}
    (depth : ∀ p ∈ paths, p.length ≤ 2) (kept : ∀ p t, p.length ≤ 2 → follow mem r p = some t →
      follow mem' r p = some t) :
    missing mem' r paths ⊆ missing mem r paths := by
  intro p inside
  obtain ⟨listed, absent⟩ := Finset.mem_filter.mp inside
  refine Finset.mem_filter.mpr ⟨listed, ?_⟩
  by_contra present
  obtain ⟨t, present⟩ := Option.ne_none_iff_exists'.mp present
  rw [kept p t (depth p listed) present] at absent
  cases absent

/-- `alloc_page` returns different physical pages that the page table does not use, at least as many
as there are tables missing. -/
structure Provides (env : PageEnv σ) (k : Kernel σ) (r : ℕ) (paths : Finset (List ℕ))
    (frames : List ℕ) : Prop where
  deals : Deals env k.tp k.pool frames
  nodup : frames.Nodup
  fresh : ∀ f ∈ frames, 0 < f ∧ f < 2 ^ 44 ∧ ¬ IsTable k.mem r f
  enough : (missing k.mem r paths).card ≤ frames.length

/-- A page table with a supply of pages for it. -/
structure Stocked (env : PageEnv σ) (k : Kernel σ) (r : ℕ) (own : Owner) (paths : Finset (List ℕ))
    (frames : List ℕ) : Prop
    extends Rooted k.mem r own, Provides env k r paths frames where
  depth : ∀ p ∈ paths, p.length ≤ 2

private theorem pathsOf_depth (q n : ℕ) : ∀ p ∈ pathsOf q n, p.length ≤ 2 := by
  intro p inside
  simp only [pathsOf, Finset.mem_biUnion, Finset.mem_insert, Finset.mem_singleton] at inside
  obtain ⟨i, _, rfl | rfl⟩ := inside
  · simp
  · simp

theorem mem_pathsOf {q n i : ℕ} (below : i < n) :
    [PX 2 ((q + i) * PGSIZE)] ∈ pathsOf q n ∧
    [PX 2 ((q + i) * PGSIZE), PX 1 ((q + i) * PGSIZE)] ∈ pathsOf q n := by
  simp only [pathsOf, Finset.mem_biUnion, Finset.mem_insert, Finset.mem_singleton, Finset.mem_range]
  exact ⟨⟨i, below, Or.inl rfl⟩, ⟨i, below, Or.inr rfl⟩⟩

theorem page_div (f : ℕ) : f * PGSIZE / PGSIZE = f := Nat.mul_div_cancel _ (by decide)

namespace Stocked

variable {k : Kernel σ} {r : ℕ} {own : Owner} {paths : Finset (List ℕ)} {frames : List ℕ}

/-- A table on a missing path takes the next page of the supply. -/
theorem hang (stocked : Stocked env k r own paths frames) {t i : ℕ} {p : List ℕ} (named : own t = some (r, p))
    (short : p.length < 2) (index : i < 512) (empty : k.mem t i = 0) (wanted : p ++ [i] ∈ paths) :
    ∃ f rest pool, frames = f :: rest ∧ env.alloc k = .ok (f * PGSIZE) pool ∧
      Stocked env { k.took (f * PGSIZE) pool with mem := Tables.hang k.mem t i f }
      r (Function.update own f (some (r, p ++ [i]))) paths rest := by
  have rooted := stocked.toRooted
  have absent : follow k.mem r (p ++ [i]) = none := by
    rw [follow_snoc, (rooted.reached t r p named).2, Option.bind_some, tableBelow, empty, not_has_zero]
    simp
  have member : p ++ [i] ∈ missing k.mem r paths := Finset.mem_filter.mpr ⟨wanted, absent⟩
  have deals := stocked.deals
  have nodup := stocked.nodup
  have fresh := stocked.fresh
  have enough := stocked.enough
  cases deals with
  | nil =>
    have none := Finset.card_eq_zero.mp (Nat.le_zero.mp enough)
    rw [none] at member
    exact absurd member (Finset.notMem_empty _)
  | @cons _ pool f rest call deals =>
    obtain ⟨_, small, unused⟩ := fresh f List.mem_cons_self
    have free : own f = none := by
      by_contra named
      exact unused ((rooted.isTable_iff f).mpr named)
    have hung := rooted.hang named short index empty free small
    have reached : follow (Tables.hang k.mem t i f) r (p ++ [i]) = some f :=
      (hung.reached f r _ (Function.update_self ..)).2
    refine ⟨f, rest, pool, rfl, call k rfl rfl,
      ⟨hung, ⟨deals, (List.nodup_cons.mp nodup).2, ?_, ?_⟩, stocked.depth⟩⟩
    · intro g inside
      obtain ⟨positive, small, unused⟩ := fresh g (List.mem_cons_of_mem _ inside)
      have apart : g ≠ f := by
        rintro rfl
        exact (List.nodup_cons.mp nodup).1 inside
      refine ⟨positive, small, fun table => ?_⟩
      apply (hung.isTable_iff g).mp table
      rw [Function.update_of_ne apart]
      by_contra named
      exact unused ((rooted.isTable_iff g).mpr named)
    · have fewer : missing (Tables.hang k.mem t i f) r paths ⊂ missing k.mem r paths := by
        have subset := missing_subset stocked.depth fun q t' short reached =>
          rooted.hang_follow free empty short reached
        refine Finset.ssubset_iff_of_subset subset |>.mpr ⟨p ++ [i], member, fun inside => ?_⟩
        rw [(Finset.mem_filter.mp inside).2] at reached
        cases reached
      have less := Finset.card_lt_card fewer
      rw [List.length_cons] at enough
      exact Nat.le_of_lt_succ (less.trans_le enough)

/-- One round of a walk that adds the table if it is missing. -/
theorem walkRound (stocked : Stocked env k r own paths frames) {va pt n : ℕ} {p : List ℕ}
    (named : own pt = some (r, p)) (short : p.length < 2) (wanted : p ++ [PX (n + 1) va] ∈ paths) :
    ∃ k' own' frames' pt', pageWalkLoop env va 0 true (n + 1) pt k = pageWalkLoop env va 0 true n pt' k' ∧
      Stocked env k' r own' paths frames' ∧ own' pt' = some (r, p ++ [PX (n + 1) va]) ∧
      ∀ va', translate k'.mem r va' = translate k.mem r va' := by
  have level : 0 + n + 1 = n + 1 := by omega
  rw [pageWalkLoop, level, bind_of_ok (get_apply k)]
  by_cases valid : has (k.mem pt (PX (n + 1) va)) PTE_V = true
  · have entry : has (pteAt k (pt, PX (n + 1) va)) PTE_V = true := valid
    simp only [if_pos entry]
    obtain ⟨_, child⟩ := stocked.tables.down named short (px_lt _ va) valid
    exact ⟨k, own, frames, _, rfl, stocked, child, fun _ => rfl⟩
  · have empty : k.mem pt (PX (n + 1) va) = 0 := by
      by_contra nonzero
      exact valid (stocked.tables.below pt r p named short _ (px_lt _ va) nonzero).1
    obtain ⟨f, rest, pool, rfl, call, hung⟩ := stocked.hang named short (px_lt _ va) empty wanted
    obtain ⟨positive, small, unused⟩ := stocked.fresh f List.mem_cons_self
    have free : own f = none := by
      by_contra named
      exact unused ((stocked.isTable_iff f).mpr named)
    have take : env.allocPage k = .ok (f * PGSIZE) (k.took (f * PGSIZE) pool) := by rw [PageEnv.allocPage, call]
    have nonzero : f * PGSIZE ≠ 0 := Nat.mul_ne_zero positive.ne' (by decide)
    have publish : casPte (pt, PX (n + 1) va) 0 (PA2PTE (f * PGSIZE) ||| PTE_V) (k.took (f * PGSIZE) pool) =
        .ok true ((k.took (f * PGSIZE) pool).setWord pt (PX (n + 1) va) (f * 2 ^ 10 ||| PTE_V)) := by
      simp only [casPte, bind_apply, get_apply, pteAt, setPte, PA2PTE_page]
      rw [if_pos (show (k.took (f * PGSIZE) pool).mem pt (PX (n + 1) va) = 0 from empty)]
      rfl
    have entry : ¬ has (pteAt k (pt, PX (n + 1) va)) PTE_V = true := valid
    simp only [if_neg entry, if_true]
    rw [bind_of_ok take, if_pos nonzero, bind_of_ok publish, if_pos rfl, page_div,
      bind_of_ok (show clearPage f _ = .ok () _ from rfl)]
    exact ⟨_, _, rest, f, rfl, hung, Function.update_self .., fun va' =>
      stocked.tables.hang_translate named short free small empty stocked.root⟩

/-- `page_walk` with `alloc` set returns the entry of the address, and changes no translation. -/
theorem walk (stocked : Stocked env k r own paths frames) {va : ℕ} (inside : 0 < va ∧ va < MAXVA)
    (top : [PX 2 va] ∈ paths) (middle : [PX 2 va, PX 1 va] ∈ paths) :
    ∃ k' own' frames' t, pageWalk env (r * PGSIZE) va 0 true k = .ok (some (t, PX 0 va)) k' ∧
      Stocked env k' r own' paths frames' ∧ leafTable k'.mem r va = some t ∧
      ∀ va', translate k'.mem r va' = translate k.mem r va' := by
  obtain ⟨k₁, own₁, frames₁, t₁, round₁, stocked₁, named₁, same₁⟩ :=
    stocked.walkRound (n := 1) stocked.root (by simp) top
  obtain ⟨k₂, own₂, frames₂, t₂, round₂, stocked₂, named₂, same₂⟩ :=
    stocked₁.walkRound (n := 0) named₁ (by simp) middle
  refine ⟨k₂, own₂, frames₂, t₂, ?_, stocked₂, ?_, fun va' => (same₂ va').trans (same₁ va')⟩
  · have loop : pageWalkLoop env va 0 true 2 r k = .ok (some t₂) k₂ := round₁.trans round₂
    rw [pageWalk, bind_of_ok (rangeCheck inside k), page_div, bind_of_ok loop]
    rfl
  · rw [← follow_two]
    exact (stocked₂.reached t₂ r _ named₂).2

/-- Storing the entry of an address. -/
theorem setLeaf (stocked : Stocked env k r own paths frames) {va t : ℕ}
    (found : leafTable k.mem r va = some t) (pte : ℕ) (leaf : pte ≠ 0 → has pte PTE_V = true) :
    Stocked env (k.setWord t (PX 0 va) pte) r own paths frames ∧
    ∀ va', translate (k.setWord t (PX 0 va) pte).mem r va' =
      if pageOf va' = pageOf va then pte else translate k.mem r va' := by
  have named := stocked.tables.leafTable_owner stocked.root found
  have rooted := stocked.toRooted.setLeaf (i := PX 0 va) named rfl pte leaf
  refine ⟨⟨rooted, ⟨stocked.deals, stocked.nodup, fun f inside => ?_, ?_⟩, stocked.depth⟩, fun va' => ?_⟩
  · obtain ⟨positive, small, unused⟩ := stocked.fresh f inside
    refine ⟨positive, small, fun table => unused ?_⟩
    rw [stocked.isTable_iff]
    exact (rooted.isTable_iff f).mp table
  · apply le_trans (Finset.card_le_card (missing_subset stocked.depth fun q t' short reached => ?_))
      stocked.enough
    exact (rooted.reached t' r q (stocked.toRooted.owner short reached)).2
  · refine (stocked.tables.translate_setLeaf stocked.root stocked.root found pte).trans ?_
    simp only [true_and]

end Stocked

/-- The entry of page `i` of a mapping. -/
def entryOf (pa perm i : ℕ) : ℕ := PA2PTE ((pa + i * PGSIZE) % WORD) ||| perm ||| PTE_V

theorem pageOf_page {q : ℕ} (small : q < 2 ^ 27) : pageOf (q * PGSIZE) = q := by
  rw [pageOf, page_div]
  exact Nat.mod_eq_of_lt small

/-- The loop of `map_pages` over pages that are not mapped. -/
theorem Stocked.mapLoop {k : Kernel σ} {r : ℕ} {own : Owner} {paths : Finset (List ℕ)} {frames : List ℕ}
    (stocked : Stocked env k r own paths frames) (perm pa : ℕ) {n q : ℕ} (low : 0 < q) (high : q + n ≤ 2 ^ 26)
    (word : pa < WORD)
    (wanted : ∀ i < n, [PX 2 ((q + i) * PGSIZE)] ∈ paths ∧
      [PX 2 ((q + i) * PGSIZE), PX 1 ((q + i) * PGSIZE)] ∈ paths)
    (unmapped : ∀ i < n, has (translate k.mem r ((q + i) * PGSIZE)) PTE_V = false) :
    ∃ k' own' frames', mapPagesLoop env (r * PGSIZE) perm n (q * PGSIZE) pa k = .ok true k' ∧
      Stocked env k' r own' paths frames' ∧ ∀ va, translate k'.mem r va = if q ≤ pageOf va ∧
      pageOf va < q + n then entryOf pa perm (pageOf va - q) else translate k.mem r va := by
  induction n generalizing k own frames q pa with
  | zero =>
    refine ⟨k, own, frames, rfl, stocked, fun va => ?_⟩
    rw [if_neg (by omega)]
  | succ n ih =>
    have page := pageOf_page (show q < 2 ^ 27 by omega)
    have inside : 0 < q * PGSIZE ∧ q * PGSIZE < MAXVA := by
      simp only [PGSIZE, MAXVA]
      omega
    obtain ⟨top, middle⟩ := wanted 0 (Nat.succ_pos n)
    rw [Nat.add_zero] at top middle
    obtain ⟨k₁, own₁, frames₁, t, walk, stocked₁, found, same₁⟩ := stocked.walk inside top middle
    have entry : k₁.mem t (PX 0 (q * PGSIZE)) = translate k.mem r (q * PGSIZE) := by
      rw [← same₁, translate, found]
    have invalid := unmapped 0 (Nat.succ_pos n)
    rw [Nat.add_zero] at invalid
    have flag : has (pteAt k₁ (t, PX 0 (q * PGSIZE))) PTE_V = false := by rw [pteAt, entry, invalid]
    obtain ⟨stocked₂, same₂⟩ := stocked₁.setLeaf found (PA2PTE pa ||| perm ||| PTE_V) fun _ => has_valid_or _
    have next : (q * PGSIZE + PGSIZE) % WORD = (q + 1) * PGSIZE := by
      simp only [PGSIZE, WORD]
      omega
    have shift : ∀ i, q + 1 + i = q + (i + 1) := fun i => by omega
    have step : mapPagesLoop env (r * PGSIZE) perm (n + 1) (q * PGSIZE) pa k =
        mapPagesLoop env (r * PGSIZE) perm n ((q + 1) * PGSIZE)
        ((pa + PGSIZE) % WORD) (k₁.setWord t (PX 0 (q * PGSIZE)) (PA2PTE pa ||| perm ||| PTE_V)) := by
      rw [mapPagesLoop, bind_of_ok walk]
      simp only []
      rw [bind_of_ok (get_apply k₁), flag, next]
      rfl
    obtain ⟨k', own', frames', loop, stocked', same'⟩ :=
      ih stocked₂ ((pa + PGSIZE) % WORD) (q := q + 1) (Nat.succ_pos q)
      (by omega) (Nat.mod_lt _ (by decide)) (fun i below => by rw [shift]; exact wanted (i + 1) (by omega))
      fun i below => by
        rw [same₂, pageOf_page (by omega), page, if_neg (by omega), same₁, shift]
        exact unmapped (i + 1) (by omega)
    refine ⟨k', own', frames', step.trans loop, stocked', fun va => ?_⟩
    rw [same', same₂, same₁, page]
    by_cases here : pageOf va = q
    · rw [here, if_neg (by omega), if_pos rfl, if_pos (by omega), Nat.sub_self, entryOf, Nat.zero_mul,
        Nat.add_zero, Nat.mod_eq_of_lt word]
    · rw [if_neg here]
      by_cases range : q + 1 ≤ pageOf va ∧ pageOf va < q + 1 + n
      · rw [if_pos range, if_pos (by omega), entryOf, entryOf]
        have sum : ((pa + PGSIZE) % WORD + (pageOf va - (q + 1)) * PGSIZE) % WORD =
          (pa + (pageOf va - q) * PGSIZE) % WORD := by
          obtain ⟨d, index⟩ : ∃ d, pageOf va = q + 1 + d := ⟨pageOf va - (q + 1), by omega⟩
          have first : q + 1 + d - (q + 1) = d := by omega
          have second : q + 1 + d - q = d + 1 := by omega
          rw [Nat.mod_add_mod, index, first, second, Nat.succ_mul, Nat.add_assoc, Nat.add_comm PGSIZE]
        rw [sum]
      · rw [if_neg range, if_neg (by omega)]

/-- The number of pages that touch the `size` bytes from `va`; an empty range in the middle of a
page touches it. -/
def pagesIn (va size : ℕ) : ℕ := (va + size - ROUNDDOWN va PGSIZE + PGSIZE - 1) / PGSIZE

/-- `map_pages` runs one round for each of these pages. -/
theorem mapPages_rounds (env : PageEnv σ) (dir pa perm : ℕ) {va size : ℕ} (low : PGSIZE ≤ va)
    (high : va + size ≤ MAXVA) :
    mapPages env dir va size pa perm = mapPagesLoop env dir perm (pagesIn va size)
    (va / PGSIZE * PGSIZE) pa := by
  have last : (va + size + WORD - 1) % WORD = va + size - 1 := by
    simp only [PGSIZE, WORD, MAXVA] at *
    omega
  have rounds : (if ROUNDDOWN va PGSIZE ≤ ROUNDDOWN (va + size - 1) PGSIZE then
      (ROUNDDOWN (va + size - 1) PGSIZE - ROUNDDOWN va PGSIZE) / PGSIZE + 1 else 0) = pagesIn va size := by
    by_cases some : ROUNDDOWN va PGSIZE ≤ ROUNDDOWN (va + size - 1) PGSIZE
    · rw [if_pos some]
      simp only [pagesIn, ROUNDDOWN, PGSIZE] at *
      omega
    · rw [if_neg some]
      simp only [pagesIn, ROUNDDOWN, PGSIZE] at *
      omega
  rw [mapPages, last, rounds]
  rfl

theorem WellFormed.stocked {k : Kernel σ} {r q n : ℕ} {frames : List ℕ} (formed : WellFormed k.mem r)
    (provides : Provides env k r (pathsOf q n) frames) : ∃ own, Stocked env k r own (pathsOf q n) frames := by
  obtain ⟨own, rooted⟩ := formed.rooted
  exact ⟨own, rooted, provides, pathsOf_depth q n⟩

/-- An entry with an aligned address and flags below it. -/
theorem entryOf_fields {pa perm i : ℕ} (aligned : pa % PGSIZE = 0) (flags : perm < 2 ^ 10)
    (word : pa + i * PGSIZE < WORD) :
    PTE2PA (entryOf pa perm i) = pa + i * PGSIZE ∧ entryOf pa perm i % 2 ^ 10 = perm ||| PTE_V := by
  have small : perm ||| PTE_V < 2 ^ 10 := Nat.or_lt_two_pow flags (by decide)
  have frame : PA2PTE (pa + i * PGSIZE) = (pa / PGSIZE + i) * 2 ^ 10 := by
    simp only [PA2PTE, PGSIZE] at *
    omega
  rw [entryOf, Nat.mod_eq_of_lt word, frame, Nat.lor_assoc, or_flags small]
  generalize perm ||| PTE_V = bits at small
  simp only [PTE2PA, PGSIZE, WORD] at *
  omega

/-- `alloc_page` takes the cached frames from the top of the cache. -/
private theorem cache_deals {pool : Pool} {n : ℕ} (count : (pool.pmm.caches 0).count = n)
    (small : n ≤ PCPU_CACHE_SIZE) :
    Deals pmmEnv 0 pool ((cached pool.pmm 0).map pageOfPfn).reverse := by
  rw [cached, count]
  induction n generalizing pool with
  | zero => exact .nil pool
  | succ n ih =>
    obtain ⟨t, call, next, objs, _⟩ := allocPage_of_count count (by omega)
    rw [List.range_succ, List.map_append, List.map_append, List.reverse_append]
    have rest := @ih ⟨t, Function.update pool.shares (PFN_TO_ADDR ((pool.pmm.caches 0).objs n)) 1⟩
      next (by omega)
    rw [objs] at rest
    refine .cons ?_ rest
    rintro k hart rfl
    rw [← pfn_page]
    simp only [pmmEnv, hart, call]

/-- An intact allocator provides the tables that are missing while its cache lasts. -/
theorem PoolOk.provides {lay : Layout} {k : Kernel Pool} {r : ℕ} {paths : Finset (List ℕ)} (ok : PoolOk lay k)
    (tables : ∀ t, IsTable k.mem r t → t ∈ handed k.trace)
    (stock : (missing k.mem r paths).card ≤ (k.pool.pmm.caches 0).count) :
    Provides pmmEnv k r paths ((cached k.pool.pmm 0).map pageOfPfn).reverse := by
  obtain ⟨held, used, inv⟩ := ok.cache
  have nodup := inv.disjoint_singles
  refine ⟨?_, ?_, ?_, ?_⟩
  · rw [ok.hart]
    exact cache_deals rfl inv.count
  · rw [List.nodup_reverse]
    exact nodup.of_append_right.map pageOfPfn_injective
  · intro f inside
    obtain ⟨g, listed, rfl⟩ := List.mem_map.mp (List.mem_reverse.mp inside)
    obtain ⟨_, small⟩ := ok.image g (inv.managed (List.mem_append_right _ listed))
    refine ⟨?_, ?_, fun table => ?_⟩
    · simp only [pageOfPfn, DRAM_BASE, PGSIZE]
      omega
    · simp only [pageOfPfn, DRAM_BASE, PGSIZE]
      omega
    · have member := tables _ table
      rw [used] at member
      obtain ⟨h, other, same⟩ := List.mem_map.mp member
      obtain rfl := pageOfPfn_injective same
      exact List.disjoint_of_nodup_append nodup other listed
  · simpa [cached] using stock

/-- An empty root. -/
theorem follow_zero {r t : ℕ} {p : List ℕ} (reached : follow (fun _ _ => 0) r p = some t) : p = [] ∧ t = r := by
  cases p with
  | nil => exact ⟨rfl, (Option.some.inj reached).symm⟩
  | cons i p => simp [follow, tableBelow, not_has_zero] at reached

theorem wellFormed_zero (r : ℕ) : WellFormed (fun _ _ => 0) r where
  above _ _ _ _ _ _ nonzero := absurd rfl nonzero
  leaves _ _ _ _ _ _ nonzero := absurd rfl nonzero
  once _ _ _ _ _ reached reached' := (follow_zero reached).1.trans (follow_zero reached').1.symm

theorem translate_zero (r va : ℕ) : translate (fun _ _ => 0) r va = 0 := by
  simp [translate, leafTable, not_has_zero]

/-- On a range that is not mapped `map_pages` installs exactly the requested entries. -/
theorem mapPages_installs {k : Kernel σ} {r va size pa perm : ℕ} {frames : List ℕ} (formed : WellFormed k.mem r)
    (low : PGSIZE ≤ va) (nonempty : 0 < size) (high : va + size - 1 < MAXVA) (aligned : pa % PGSIZE = 0)
    (room : pa + size ≤ 2 ^ 56) (flags : perm < 2 ^ 10)
    (unmapped : ∀ i, ROUNDDOWN va PGSIZE + i * PGSIZE ≤ ROUNDDOWN (va + size - 1) PGSIZE →
      has (translate k.mem r (ROUNDDOWN va PGSIZE + i * PGSIZE)) PTE_V = false)
    (provides : Provides env k r (pathsOf (va / PGSIZE) (pagesIn va size)) frames) :
    ∃ k', mapPages env (r * PGSIZE) va size pa perm k = .ok true k' ∧
      (∀ i, ROUNDDOWN va PGSIZE + i * PGSIZE ≤ ROUNDDOWN (va + size - 1) PGSIZE →
        PTE2PA (translate k'.mem r (ROUNDDOWN va PGSIZE + i * PGSIZE)) = pa + i * PGSIZE ∧
        translate k'.mem r (ROUNDDOWN va PGSIZE + i * PGSIZE) % 2 ^ 10 = perm ||| PTE_V) ∧
      (∀ va', 0 < va' → va' < MAXVA →
        va' < ROUNDDOWN va PGSIZE ∨ ROUNDDOWN (va + size - 1) PGSIZE + PGSIZE ≤ va' →
        translate k'.mem r va' = translate k.mem r va') ∧
      WellFormed k'.mem r := by
  obtain ⟨own, stocked⟩ := formed.stocked provides
  have pages : ∀ i, ROUNDDOWN va PGSIZE + i * PGSIZE = (va / PGSIZE + i) * PGSIZE :=
    fun i => (Nat.add_mul ..).symm
  have count : ∀ i, ROUNDDOWN va PGSIZE + i * PGSIZE ≤ ROUNDDOWN (va + size - 1) PGSIZE ↔
    i < pagesIn va size := by
    intro i
    simp only [pagesIn, ROUNDDOWN, PGSIZE] at *
    omega
  have top : va / PGSIZE + pagesIn va size ≤ 2 ^ 26 := by
    simp only [pagesIn, ROUNDDOWN, PGSIZE, MAXVA] at *
    omega
  have bottom : 0 < va / PGSIZE := Nat.div_pos low (by decide)
  obtain ⟨k', own', frames', loop, stocked', same⟩ :=
    stocked.mapLoop perm pa bottom top (by simp only [WORD]; omega)
    (fun i => mem_pathsOf) fun i below => by
      rw [← pages]
      exact unmapped i ((count i).mpr below)
  refine ⟨k', ?_, ?_, ?_, stocked'.wellFormed⟩
  · rw [mapPages_rounds env _ pa perm low (by omega)]
    exact loop
  · intro i inside
    have below := (count i).mp inside
    have page : pageOf (ROUNDDOWN va PGSIZE + i * PGSIZE) = va / PGSIZE + i := by
      rw [pages]
      exact pageOf_page (by omega)
    rw [same, page, if_pos (by omega), Nat.add_sub_cancel_left]
    refine entryOf_fields aligned flags ?_
    simp only [pagesIn, ROUNDDOWN, PGSIZE, MAXVA, WORD] at *
    omega
  · intro va' _ canonical outside
    have page : pageOf va' = va' / PGSIZE := by
      simp only [pageOf, PGSIZE, MAXVA] at *
      omega
    rw [same, page, if_neg ?_]
    simp only [pagesIn, ROUNDDOWN, PGSIZE] at *
    omega

/-- One page allocated right after boot, as an empty root. -/
theorem bootKernel_root {lay : Layout} {pmm : Pmm} (booted : Booted pmm)
    (boot : BootState lay (bootKernel pmm)) :
    ∃ r k, pmmEnv.allocPage (bootKernel pmm) = .ok (r * PGSIZE) k ∧ k.mem = (fun _ _ => 0) ∧
    k.pool.pmm.lock = false ∧
      ∀ paths : Finset (List ℕ), paths.card ≤ 31 → ∃ frames, Provides pmmEnv k r paths frames := by
  have ok : PoolOk lay (bootKernel pmm) := boot.good.space.ok
  obtain ⟨inv, full⟩ := booted.cacheInv
  obtain ⟨t, call, count, _, lock, _⟩ := allocPage_of_count (n := 31) full (by decide)
  have take : pmmEnv.alloc (bootKernel pmm) = .ok (PFN_TO_ADDR ((pmm.caches 0).objs 31))
      ⟨t, Function.update (fun _ => 0) (PFN_TO_ADDR ((pmm.caches 0).objs 31)) 1⟩ := by
    simp only [pmmEnv, bootKernel, call]
  obtain ⟨r, address, _, _, _, _, next⟩ := ok.alloc take
  rw [address] at take next
  refine ⟨r, _, by rw [PageEnv.allocPage, take], rfl, lock.trans inv.unlocked, fun paths small => ⟨_,
    next.provides ?_ ?_⟩⟩
  · rintro root ⟨p, _, reached⟩
    obtain ⟨_, rfl⟩ := follow_zero reached
    rw [Kernel.took, handed_alloc]
    exact List.mem_cons_self
  · refine le_trans (Finset.card_filter_le _ _) (small.trans ?_)
    exact count.ge

/-- Two pages on both sides of a 2 MiB boundary. -/
theorem mapPages_installs_small : ∃ r k k', pmmEnv.allocPage smallKernel = .ok (r * PGSIZE) k ∧
    mapPages pmmEnv (r * PGSIZE) 0x1ff800 0x1000 0x80000000 PTE_R k = .ok true k' ∧
    PTE2PA (translate k'.mem r 0x1ff000) = 0x80000000 ∧ PTE2PA (translate k'.mem r 0x200000) = 0x80001000 := by
  obtain ⟨r, k, call, blank, _, stock⟩ := bootKernel_root smallBoot_booted smallKernel_boot
  obtain ⟨frames, provides⟩ := stock (pathsOf (0x1ff800 / PGSIZE) (pagesIn 0x1ff800 0x1000)) (by decide)
  obtain ⟨k', done, installed, _⟩ := @mapPages_installs _ pmmEnv k r 0x1ff800 0x1000 0x80000000 PTE_R frames
    (by rw [blank]; exact wellFormed_zero r)
    (by decide) (by decide) (by decide) (by decide) (by decide) (by decide)
    (fun i _ => by rw [blank, translate_zero, not_has_zero]) provides
  exact ⟨r, k, k', call, done, (installed 0 (by decide)).1, (installed 1 (by decide)).1⟩

end Pke.Proofs
