import Pke.Model.Vmm

/-! # The kernel page table: `kern_vm_init` of `vmm.c`

It runs right after `pmm_init`, before paging is on. The address that it leaves in
`g_kernel_pagetable` is the result.
-/

namespace Pke.Model

variable {σ : Type}

/-- The end of the text of the kernel, as the linker script aligns it. -/
structure KernelText where
  etext : ℕ
  aligned : etext % PGSIZE = 0
  above : KERN_BASE < etext
  below : etext < PHYS_TOP

def kernVmMap (env : PageEnv σ) (pageDir va pa sz perm : ℕ) : Exec (Kernel σ) Unit := do
  if !(← mapPages env pageDir va sz pa perm) then throw (.panic "kern_vm_map")

/-- `kern_vm_init`; `page_ref_share` is empty, and the addresses that are looked up are only printed. -/
def kernVmInit (env : PageEnv σ) (text : KernelText) : Exec (Kernel σ) ℕ := do
  let pageDir ← env.allocPage
  if pageDir = 0 then throw (.panic "kern_vm_init: out of memory for kernel page directory!\n")
  clearPage (pageDir / PGSIZE)
  kernVmMap env pageDir KERN_BASE DRAM_BASE (text.etext - KERN_BASE) (protToType true false true false)
  let _ ← lookupPa env pageDir KERN_BASE
  kernVmMap env pageDir text.etext text.etext (PHYS_TOP - text.etext) (protToType true true false false)
  let _ ← lookupPa env pageDir text.etext
  return pageDir

end Pke.Model
