import Mathlib.Tactic
import Pke.Lib.Exec
import Pke.Model.Vmm

/-! # Three-level page tables

`Tables mem own` says that the pages which `own` names are tables, each reached by exactly one path from
exactly one root: the entry `i` of a table at path `p` is zero or leads to the table at path `p ++ [i]`.
Two walks that end in the same slot therefore start at the same root and translate the same page.
`translate` is the leaf entry a walk finds, and the lemmas below say what each store does to it.
-/

namespace Pke.Proofs

open Pke.Lib Pke.Model

/-- The page number in an entry. -/
def frameOf (pte : ℕ) : ℕ := pte / 2 ^ 10

/-- The virtual page of an address, as far as a walk looks at it. -/
def pageOf (va : ℕ) : ℕ := va / PGSIZE % 2 ^ 27

theorem has_eq_testBit (word n : ℕ) : has word (2 ^ n) = word.testBit n := by
  rw [has, Nat.and_two_pow]
  cases word.testBit n <;> simp

theorem has_valid (word : ℕ) : has word PTE_V = word.testBit 0 := has_eq_testBit word 0

theorem not_has_zero (flag : ℕ) : has 0 flag = false := by simp [has]

theorem PTE2PA_page {pte : ℕ} (small : frameOf pte < 2 ^ 44) : PTE2PA pte / PGSIZE = frameOf pte := by
  simp only [PTE2PA, frameOf, WORD, PGSIZE] at *
  omega

theorem PTE2PA_eq {pte : ℕ} (small : frameOf pte < 2 ^ 44) : PTE2PA pte = frameOf pte * PGSIZE := by
  simp only [PTE2PA, frameOf, WORD, PGSIZE] at *
  omega

/-- A frame number and flags below the frame number. -/
theorem or_flags {f flags : ℕ} (small : flags < 2 ^ 10) : f * 2 ^ 10 ||| flags = f * 2 ^ 10 + flags := by
  rw [← Nat.shiftLeft_eq, Nat.shiftLeft_add_eq_or_of_lt small]

theorem frameOf_or {f flags : ℕ} (small : flags < 2 ^ 10) : frameOf (f * 2 ^ 10 ||| flags) = f := by
  rw [or_flags small, frameOf]
  omega

theorem PA2PTE_page (f : ℕ) : PA2PTE (f * PGSIZE) = f * 2 ^ 10 := by
  simp only [PA2PTE, PGSIZE]
  omega

theorem px_lt (level va : ℕ) : PX level va < 512 := Nat.mod_lt _ (by decide)

/-- The three indices of an address are its virtual page. -/
theorem pageOf_eq_iff {va va' : ℕ} :
    pageOf va = pageOf va' ↔ PX 2 va = PX 2 va' ∧ PX 1 va = PX 1 va' ∧ PX 0 va = PX 0 va' := by
  simp only [pageOf, PX, PGSIZE]
  norm_num
  omega

/-- Which table a page is: its root and the path of indices that leads to it. -/
abbrev Owner := ℕ → Option (ℕ × List ℕ)

/-- Every named table above the leaves holds zero entries and entries for the tables below it. -/
structure Tables (mem : ℕ → ℕ → ℕ) (own : Owner) : Prop where
  depth : ∀ t r p, own t = some (r, p) → p.length ≤ 2
  below : ∀ t r p, own t = some (r, p) → p.length < 2 → ∀ i < 512, mem t i ≠ 0 →
    has (mem t i) PTE_V = true ∧ frameOf (mem t i) < 2 ^ 44 ∧ own (frameOf (mem t i)) = some (r, p ++ [i])

/-- The leaf table on the path of an address. -/
def leafTable (mem : ℕ → ℕ → ℕ) (r va : ℕ) : Option ℕ :=
  let e2 := mem r (PX 2 va)
  if has e2 PTE_V then
    let e1 := mem (PTE2PA e2 / PGSIZE) (PX 1 va)
    if has e1 PTE_V then some (PTE2PA e1 / PGSIZE) else none
  else none

/-- The leaf entry of an address, or zero if there is no leaf table. -/
def translate (mem : ℕ → ℕ → ℕ) (r va : ℕ) : ℕ :=
  match leafTable mem r va with
  | some t => mem t (PX 0 va)
  | none => 0

theorem translate_congr {mem : ℕ → ℕ → ℕ} {r va va' : ℕ} (same : pageOf va = pageOf va') :
    translate mem r va = translate mem r va' := by
  obtain ⟨two, one, zero⟩ := pageOf_eq_iff.mp same
  simp only [translate, leafTable, two, one, zero]

namespace Tables

variable {mem : ℕ → ℕ → ℕ} {own : Owner} {r r' va va' t t' : ℕ}

theorem valid_ne_zero {pte : ℕ} (valid : has pte PTE_V = true) : pte ≠ 0 := by
  rintro rfl
  rw [not_has_zero] at valid
  exact absurd valid (by decide)

/-- One step down from a named table. -/
theorem down (tables : Tables mem own) {p : List ℕ} {i : ℕ} (named : own t = some (r, p)) (short : p.length < 2)
    (index : i < 512) (valid : has (mem t i) PTE_V = true) :
    PTE2PA (mem t i) / PGSIZE = frameOf (mem t i) ∧ own (PTE2PA (mem t i) / PGSIZE) = some (r, p ++ [i]) := by
  obtain ⟨_, small, child⟩ := tables.below t r p named short i index (valid_ne_zero valid)
  have page := PTE2PA_page small
  exact ⟨page, page ▸ child⟩

theorem leafTable_owner (tables : Tables mem own) (root : own r = some (r, []))
    (found : leafTable mem r va = some t) :
    own t = some (r, [PX 2 va, PX 1 va]) := by
  simp only [leafTable] at found
  split_ifs at found with top middle
  obtain ⟨_, second⟩ := tables.down root (by simp) (px_lt 2 va) top
  obtain ⟨_, third⟩ := tables.down second (by simp) (px_lt 1 va) middle
  obtain rfl := Option.some.inj found
  exact third

/-- Different roots or different pages have different slots. -/
private theorem slot_injective (tables : Tables mem own) (root : own r = some (r, []))
    (root' : own r' = some (r', [])) (found : leafTable mem r va = some t)
    (found' : leafTable mem r' va' = some t) (index : PX 0 va = PX 0 va') :
    r = r' ∧ pageOf va = pageOf va' := by
  have first := tables.leafTable_owner root found
  have second := tables.leafTable_owner root' found'
  rw [first] at second
  simp only [Option.some.injEq, Prod.mk.injEq, List.cons.injEq, and_true] at second
  exact ⟨second.1, pageOf_eq_iff.mpr ⟨second.2.1, second.2.2, index⟩⟩

/-- A store into a leaf table or into a page that is no table leaves the tables above alone. -/
theorem congr (tables : Tables mem own) {mem' : ℕ → ℕ → ℕ}
    (same : ∀ t r p, own t = some (r, p) → p.length < 2 → mem' t = mem t) : Tables mem' own where
  depth := tables.depth
  below t r p named short i index nonzero := by
    rw [same t r p named short] at nonzero ⊢
    exact tables.below t r p named short i index nonzero

theorem leafTable_congr (tables : Tables mem own) {mem' : ℕ → ℕ → ℕ}
    (same : ∀ t r p, own t = some (r, p) → p.length < 2 → mem' t = mem t)
    (root : own r = some (r, [])) (va : ℕ) :
    leafTable mem' r va = leafTable mem r va := by
  have top := same r r [] root (by simp)
  by_cases valid : has (mem r (PX 2 va)) PTE_V = true
  · obtain ⟨_, second⟩ := tables.down root (by simp) (px_lt 2 va) valid
    simp only [leafTable, top, same _ _ _ second (by simp)]
  · simp only [leafTable, top, if_neg valid]

/-- Storing into a page that is no table leaves all tables alone. -/
theorem update_data {f : ℕ} (free : own f = none) (words : ℕ → ℕ) {p : List ℕ} (named : own t = some (r, p)) :
    Function.update mem f words t = mem t := by
  apply Function.update_of_ne
  rintro rfl
  rw [free] at named
  cases named

/-- Storing into a leaf table leaves the tables above alone. -/
theorem update_leaf {p q : List ℕ} (leaf : own t = some (r, p)) (depth : p.length = 2) (words : ℕ → ℕ)
    (named : own t' = some (r', q)) (short : q.length < 2) : Function.update mem t words t' = mem t' := by
  apply Function.update_of_ne
  rintro rfl
  rw [leaf] at named
  obtain ⟨_, rfl⟩ := Prod.mk.inj (Option.some.inj named)
  exact absurd depth short.ne

/-- Storing into a page that is no table changes no translation. -/
theorem translate_data (tables : Tables mem own) {f : ℕ} (free : own f = none) (words : ℕ → ℕ)
    (root : own r = some (r, [])) :
    translate (Function.update mem f words) r va = translate mem r va := by
  have table : leafTable (Function.update mem f words) r va = leafTable mem r va :=
    tables.leafTable_congr (fun _ _ _ named _ => update_data free words named) root va
  simp only [translate, table]
  cases found : leafTable mem r va with
  | none => rfl
  | some t => exact congrFun (update_data free words (tables.leafTable_owner root found)) _

/-- Storing into a leaf slot changes the translation of that page under that root only. -/
theorem translate_setLeaf (tables : Tables mem own) (root : own r = some (r, []))
    (root' : own r' = some (r', [])) (found : leafTable mem r va = some t) (pte : ℕ) :
    translate (Function.update mem t (Function.update (mem t) (PX 0 va) pte)) r' va' =
      if r' = r ∧ pageOf va' = pageOf va then pte else translate mem r' va' := by
  have named := tables.leafTable_owner root found
  have same : ∀ t' r p, own t' = some (r, p) → p.length < 2 →
      Function.update mem t (Function.update (mem t) (PX 0 va) pte) t' = mem t' :=
    fun _ _ _ => update_leaf named rfl _
  have table := tables.leafTable_congr same root' va'
  by_cases here : r' = r ∧ pageOf va' = pageOf va
  · obtain ⟨rfl, page⟩ := here
    rw [if_pos ⟨rfl, page⟩, translate_congr page, translate]
    rw [tables.leafTable_congr same root va, found]
    simp
  · rw [if_neg here]
    simp only [translate, table]
    cases found' : leafTable mem r' va' with
    | none => rfl
    | some t' =>
      by_cases table : t' = t
      · subst table
        have index : PX 0 va' ≠ PX 0 va := fun index =>
          here (tables.slot_injective root' root found' found index)
        simp [Function.update_of_ne index]
      · simp [Function.update_of_ne table]

/-- Hanging an empty page into an empty slot of a table above the leaves. -/
def hang (mem : ℕ → ℕ → ℕ) (t i f : ℕ) : ℕ → ℕ → ℕ :=
  Function.update (Function.update mem t (Function.update (mem t) i (f * 2 ^ 10 ||| PTE_V))) f fun _ => 0

theorem hang_page (mem : ℕ → ℕ → ℕ) (t i f : ℕ) : hang mem t i f f = fun _ => 0 := Function.update_self ..

theorem hang_slot {f : ℕ} (apart : t ≠ f) (i : ℕ) : hang mem t i f t i = f * 2 ^ 10 ||| PTE_V := by
  simp [hang, Function.update_of_ne apart]

theorem hang_other {f i j t' : ℕ} (apart : t' ≠ f) (other : t' ≠ t ∨ j ≠ i) :
    hang mem t i f t' j = mem t' j := by
  rw [hang, Function.update_of_ne apart]
  by_cases same : t' = t
  · subst same
    rw [Function.update_self, Function.update_of_ne (other.resolve_left (by simp))]
  · rw [Function.update_of_ne same]

section

variable {p : List ℕ} {i f : ℕ}

theorem hang_tables (tables : Tables mem own) (named : own t = some (r, p)) (short : p.length < 2)
    (fresh : own f = none) (small : f < 2 ^ 44) :
    Tables (hang mem t i f) (Function.update own f (some (r, p ++ [i]))) := by
  have apart : t ≠ f := by
    rintro rfl
    rw [fresh] at named
    exact absurd named (by simp)
  refine ⟨?_, ?_⟩
  · intro t' r' p' owner
    by_cases here : t' = f
    · subst here
      rw [Function.update_self] at owner
      obtain ⟨_, rfl⟩ := Prod.mk.inj (Option.some.inj owner)
      simp only [List.length_append, List.length_singleton]
      omega
    · rw [Function.update_of_ne here] at owner
      exact tables.depth t' r' p' owner
  · intro t' r' p' owner short' j index nonzero
    by_cases here : t' = f
    · subst here
      rw [hang_page] at nonzero
      exact absurd rfl nonzero
    · rw [Function.update_of_ne here] at owner
      by_cases slot : t' = t ∧ j = i
      · obtain ⟨rfl, rfl⟩ := slot
        obtain ⟨rfl, rfl⟩ := Prod.mk.inj (Option.some.inj (named.symm.trans owner))
        have frame : frameOf (f * 2 ^ 10 ||| PTE_V) = f := frameOf_or (by decide)
        rw [hang_slot apart, frame, Function.update_self]
        refine ⟨?_, small, rfl⟩
        rw [has_valid, Nat.testBit_or]
        simp [PTE_V]
      · rw [hang_other here (not_and_or.mp slot)] at nonzero ⊢
        obtain ⟨valid, bound, child⟩ := tables.below t' r' p' owner short' j index nonzero
        refine ⟨valid, bound, ?_⟩
        rw [Function.update_of_ne ?_]
        · exact child
        · intro same
          rw [same, fresh] at child
          exact absurd child (by simp)

/-- The new table is empty, so no translation changes. -/
theorem hang_translate (tables : Tables mem own) (named : own t = some (r, p)) (short : p.length < 2)
    (fresh : own f = none) (small : f < 2 ^ 44) (empty : mem t i = 0) (root' : own r' = some (r', [])) :
    translate (hang mem t i f) r' va' = translate mem r' va' := by
  have notFresh : ∀ {t' q}, own t' = some q → t' ≠ f := by
    rintro t' q owner rfl
    rw [fresh] at owner
    exact absurd owner (by simp)
  have frame : frameOf (f * 2 ^ 10 ||| PTE_V) = f := frameOf_or (by decide)
  have page : PTE2PA (f * 2 ^ 10 ||| PTE_V) / PGSIZE = f := by rw [PTE2PA_page (by rwa [frame]), frame]
  have valid : has (f * 2 ^ 10 ||| PTE_V) PTE_V = true := by
    rw [has_valid, Nat.testBit_or]
    simp [PTE_V]
  have apart := notFresh named
  by_cases top : r' = t ∧ PX 2 va' = i
  · obtain ⟨rfl, rfl⟩ := top
    have before : leafTable mem r' va' = none := by simp [leafTable, empty, not_has_zero]
    have after : leafTable (hang mem r' (PX 2 va') f) r' va' = none := by
      simp only [leafTable, hang_slot apart, valid, page, hang_page, not_has_zero, if_true,
        Bool.false_eq_true, if_false]
    simp only [translate, before, after]
  · have first : hang mem t i f r' (PX 2 va') = mem r' (PX 2 va') :=
      hang_other (notFresh root') (not_and_or.mp top)
    by_cases second : has (mem r' (PX 2 va')) PTE_V = true
    · obtain ⟨_, owner⟩ := tables.down root' (by simp) (px_lt 2 va') second
      by_cases middle : PTE2PA (mem r' (PX 2 va')) / PGSIZE = t ∧ PX 1 va' = i
      · obtain ⟨rfl, rfl⟩ := middle
        have before : leafTable mem r' va' = none := by simp [leafTable, second, empty, not_has_zero]
        have after : leafTable (hang mem (PTE2PA (mem r' (PX 2 va')) / PGSIZE) (PX 1 va') f) r'
          va' = some f := by
          simp only [leafTable, first, second, hang_slot apart, valid, page, if_true]
        simp only [translate, before, after, hang_page]
      · have third : hang mem t i f (PTE2PA (mem r' (PX 2 va')) / PGSIZE) (PX 1 va') =
            mem (PTE2PA (mem r' (PX 2 va')) / PGSIZE) (PX 1 va') :=
            hang_other (notFresh owner) (not_and_or.mp middle)
        have same : leafTable (hang mem t i f) r' va' = leafTable mem r' va' := by
          simp only [leafTable, first, third]
        simp only [translate, same]
        cases found : leafTable mem r' va' with
        | none => rfl
        | some leaf =>
          have leafOwner := tables.leafTable_owner root' found
          refine hang_other (notFresh leafOwner) (Or.inl ?_)
          rintro rfl
          rw [named] at leafOwner
          obtain ⟨_, rfl⟩ := Prod.mk.inj (Option.some.inj leafOwner)
          simp at short
    · have before : leafTable mem r' va' = none := by simp [leafTable, second]
      have after : leafTable (hang mem t i f) r' va' = none := by simp [leafTable, first, second]
      simp only [translate, before, after]

end

end Tables

end Pke.Proofs
