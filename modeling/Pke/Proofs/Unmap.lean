import Pke.Proofs.MapPages
import Pke.Proofs.SyscallArguments

/-! # `user_vm_unmap` undoes `map_pages`

Both functions run one round for each page of the range. A round of `user_vm_unmap` skips a page without a
leaf table or without a valid entry, and clears the entry otherwise; with `free` set it gives the page of the
entry to `pfree` first, and ends where `pfree` does not return.
-/

namespace Pke.Proofs

open Pke.Lib Pke.Model

/-- The calls of `pfree` for these pages, as the history records them. -/
def releaseEvents (free : Bool) (pages : List ℕ) : List PageEvent :=
  if free then (pages.map PageEvent.free).reverse else []

/-- With `free` set, the lock is free and the allocator permits the releases of the pages one after
the other. -/
def Ready (free : Bool) (k : Kernel Pool) (pages : List ℕ) : Prop :=
  free = true → k.pool.pmm.lock = false ∧
  Throughout (Permitted k.tp) (CallStep k.tp) k.pool.pmm (pages.map .pfree)

namespace Rooted

variable {k : Kernel Pool} {r : ℕ} {own : Owner}

/-- What one round of `user_vm_unmap` does. -/
theorem unmapRound (rooted : Rooted k.mem r own) {free : Bool} {va n : ℕ} (inside : 0 < va ∧ va < MAXVA)
    {rest : List ℕ} (ready : Ready free k
      ((if has (translate k.mem r va) PTE_V then [PTE2PA (translate k.mem r va)] else []) ++ rest)) :
    ∃ k', userVmUnmapLoop pmmEnv (r * PGSIZE) free (n + 1) va k =
        userVmUnmapLoop pmmEnv (r * PGSIZE) free n ((va + PGSIZE) % WORD) k' ∧
      Rooted k'.mem r own ∧ Ready free k' rest ∧
      (∀ va', translate k'.mem r va' = if pageOf va' = pageOf va then 0 else translate k.mem r va') ∧
      k'.trace = releaseEvents free (if has (translate k.mem r va) PTE_V then [PTE2PA (translate k.mem r va)]
        else []) ++ k.trace := by
  have walk := pageWalk_read pmmEnv (r * PGSIZE) va k
  rw [if_pos inside, page_div] at walk
  rw [userVmUnmapLoop, bind_of_ok walk]
  have skip : has (translate k.mem r va) PTE_V = false → Rooted k.mem r own ∧ Ready free k rest ∧
      (∀ va', translate k.mem r va' = if pageOf va' = pageOf va then 0 else translate k.mem r va') ∧
      k.trace = releaseEvents free (if has (translate k.mem r va) PTE_V then [PTE2PA (translate k.mem r va)]
        else []) ++ k.trace := by
    intro invalid
    simp only [invalid, Bool.false_eq_true, if_false, List.nil_append] at ready
    refine ⟨rooted, ready, fun va' => ?_, ?_⟩
    · split_ifs with here
      · rw [translate_congr here]
        exact rooted.leaf_zero invalid
      · rfl
    · rw [invalid]
      cases free <;> rfl
  cases found : leafTable k.mem r va with
  | none =>
    have invalid : has (translate k.mem r va) PTE_V = false := by rw [translate, found, not_has_zero]
    exact ⟨k, rfl, skip invalid⟩
  | some t =>
    have entry : pteAt k (t, PX 0 va) = translate k.mem r va := by rw [translate, found, pteAt]
    simp only [Option.map_some]
    rw [bind_of_ok (get_apply k), entry]
    by_cases valid : has (translate k.mem r va) PTE_V = true
    · have named := rooted.tables.leafTable_owner rooted.root found
      have cleared := rooted.setLeaf (i := PX 0 va) named rfl 0 fun nonzero => absurd rfl nonzero
      have store : ∀ va', translate (Function.update k.mem t (Function.update (k.mem t) (PX 0 va) 0)) r va' =
          if pageOf va' = pageOf va then 0 else translate k.mem r va' := fun va' => by
        rw [rooted.tables.translate_setLeaf rooted.root rooted.root found]
        simp only [true_and]
      simp only [valid, if_true, List.singleton_append] at ready ⊢
      cases free with
      | false => exact ⟨k.setWord t (PX 0 va) 0, rfl, cleared, fun flag => absurd flag (by decide), store, rfl⟩
      | true =>
        obtain ⟨unlocked, calls⟩ := ready rfl
        obtain ⟨permitted, others⟩ := throughout_cons.mp calls
        obtain ⟨pmm, step, free, give⟩ := pfree_permitted unlocked permitted
        rw [if_pos rfl, bind_of_ok give]
        exact ⟨(k.gave (PTE2PA (translate k.mem r va)) { k.pool with pmm }).setWord t (PX 0 va) 0, rfl, cleared,
          fun _ => ⟨free, others pmm step⟩, store, rfl⟩
    · have invalid : has (translate k.mem r va) PTE_V = false := by simpa using valid
      have effect := skip invalid
      simp only [invalid, Bool.false_eq_true, if_false] at effect ⊢
      exact ⟨k, rfl, effect⟩

end Rooted

end Pke.Proofs
