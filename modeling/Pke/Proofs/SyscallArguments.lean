import Pke.Proofs.HeapCalls
import Pke.Proofs.LockDiscipline

/-! # Addresses that system calls pass to the page tables

`sys_user_print`, `sys_user_free_page` and `sys_user_printpa` walk the page table of the caller at
an address that the user chose. `page_walk` asserts that the address is positive and below `MAXVA`,
`sys_user_print` reads a text through the translation without looking at it, and
`sys_user_free_page` pushes what it finds into the page cache of the hart in `tp` and its argument
into the list of the process. A call returns to the process exactly if its arguments are `Answered`;
the page tables can hold anything.
-/

namespace Pke.Proofs

open Pke.Lib Pke.Model

variable {lay : Layout}

section

variable {k : Kernel Pool}

/-- `pfree` for the kernel is a call of the allocator of `pmm.c`. -/
theorem pfree_callStep {pa : ℕ} {k' : Kernel Pool} : pmmEnv.pfree pa k = .ok () k' ↔
    ∃ pmm, CallStep k.tp k.pool.pmm (.pfree pa) pmm ∧ k' = k.gave pa { k.pool with pmm } := by
  have call : (PmmCall.pfree pa).run k.tp k.pool.pmm = pfree k.tp pa k.pool.pmm := rfl
  simp only [PageEnv.pfree, pmmEnv, CallStep, call]
  cases pfree k.tp pa k.pool.pmm with
  | ok _ pmm => simp [eq_comm]
  | error e pmm => simp

/-- A release that is permitted returns. -/
theorem pfree_permitted (unlocked : k.pool.pmm.lock = false) {pa : ℕ}
    (permitted : Permitted k.tp k.pool.pmm (.pfree pa)) :
    ∃ pmm, CallStep k.tp k.pool.pmm (.pfree pa) pmm ∧ pmm.lock = false ∧
      pmmEnv.pfree pa k = .ok () (k.gave pa { k.pool with pmm }) := by
  obtain ⟨pmm, step⟩ := (discipline_of_permitted unlocked permitted).returns trivial
  exact ⟨pmm, step, callStep_unlocked unlocked step, pfree_callStep.mpr ⟨pmm, step, rfl⟩⟩

/-- The addresses of `n` rounds of `user_vm_unmap`. -/
def visits : ℕ → ℕ → List ℕ
  | 0, _ => []
  | n + 1, first => first :: visits n ((first + PGSIZE) % WORD)

end

end Pke.Proofs
