import Pke.Proofs.Space

/-! # Steps on one process, and `alloc_process`

`Only S who` relates two states between which only the processes in `who` changed, and the kernel kept
all pages it held. The rules below say so for each kind of statement that works on a process: taking a
page, changing fields, making an empty page table, mapping a page. `alloc_process` is a sequence of them.
-/

namespace Pke.Proofs

open Pke.Lib Pke.Model

variable {σ : Type} {env : PageEnv σ} {trapSec : ℕ} {S : Supply env trapSec}

namespace Kernel

variable (k : Kernel σ) (i : ℕ) (change : Process → Process)

@[simp] theorem setProc_procs_self : (k.setProc i change).procs i = change (k.procs i) :=
  Function.update_self ..

@[simp] theorem setProc_procs_of_ne {pid : ℕ} (other : pid ≠ i) :
    (k.setProc i change).procs pid = k.procs pid :=
  Function.update_of_ne other ..

end Kernel

/-- Only the processes in `who` changed, and the kernel kept its pages. -/
structure Only (S : Supply env trapSec) (who : ℕ → Prop) (k : Kernel σ) (own : Owner) (k' : Kernel σ)
    (own' : Owner) :
    Prop where
  space : Space S k' own'
  held : ∀ f, Held S k own f → Held S k' own' f
  taken : ∀ f ∈ handed k.trace, f ∈ handed k'.trace
  procs : ∀ pid, ¬ who pid → k'.procs pid = k.procs pid
  ptes : ∀ pid, ¬ who pid → HasSpace k pid → ∀ va, pteOf k' pid va = pteOf k pid va
  current : k'.current = k.current
  tp : k'.tp = k.tp

namespace Only

variable {who : ℕ → Prop} {k k' k'' : Kernel σ} {own own' own'' : Owner}

theorem hasSpace (only : Only S who k own k' own') {pid : ℕ} (other : ¬ who pid) :
    HasSpace k' pid ↔ HasSpace k pid := by
  simp only [HasSpace, only.procs pid other]

theorem trans (first : Only S who k own k' own') (second : Only S who k' own' k'' own'') :
    Only S who k own k'' own'' where
  space := second.space
  held f inside := second.held f (first.held f inside)
  taken f inside := second.taken f (first.taken f inside)
  procs pid other := (second.procs pid other).trans (first.procs pid other)
  ptes pid other inside va := by
    rw [second.ptes pid other ((first.hasSpace other).mpr inside), first.ptes pid other inside]
  current := second.current.trans first.current
  tp := second.tp.trans first.tp

theorem mono {who' : ℕ → Prop} (only : Only S who k own k' own') (imp : ∀ pid, who pid → who' pid) :
    Only S who' k own k' own' :=
  ⟨only.space, only.held, only.taken, fun pid other => only.procs pid fun inside => other (imp pid inside),
    fun pid other => only.ptes pid fun inside => other (imp pid inside), only.current, only.tp⟩

theorem refl (space : Space S k own) : Only S who k own k own :=
  ⟨space, fun _ held => held, fun _ inside => inside, fun _ _ => rfl, fun _ _ _ _ => rfl, rfl, rfl⟩

end Only

section

variable {k k' : Kernel σ} {own own' : Owner} {who : ℕ → Prop}

theorem Grown.only (space : Space S k own) (grown : Grown S k own k' own') : Only S who k own k' own' where
  space := grown.space
  held f held := ⟨grown.data f held.free (Or.inl held.taken), grown.stillHanded held.taken,
    grown.stillKept held.kept, held.small⟩
  taken f inside := grown.stillHanded inside
  procs pid _ := by rw [grown.procs]
  ptes pid _ inside va := grown.samePte space.toShape inside va
  current := grown.current
  tp := grown.tp

theorem Edited.only {pid va pte : ℕ} (edited : Edited S k own k' own' (editPte (pteOf k) pid va pte)) :
    Only S (· = pid) k own k' own' where
  space := edited.space
  held f held := ⟨edited.data f held.free held.taken, edited.stillHanded held.taken,
    edited.stillKept held.kept, held.small⟩
  taken f inside := edited.stillHanded inside
  procs pid' _ := by rw [edited.procs]
  ptes pid' other inside va' := by rw [edited.ptes pid' inside, editPte, if_neg fun here => other here.1]
  current := edited.current
  tp := edited.tp

/-- Logging an event of the kernel. -/
theorem Space.onlyRecord (space : Space S k own) {e : PageEvent} (log : Logs e) :
    Only S who k own (k.record e) own where
  space := space.record log
  held f held := ⟨held.free, by rw [Kernel.record, handed_logs log]; exact held.taken,
    by rw [Kernel.record, S.keptLogged _ log]; exact held.kept, held.small⟩
  taken f inside := by rwa [Kernel.record, handed_logs log]
  procs _ _ := rfl
  ptes _ _ _ _ := rfl
  current := rfl
  tp := rfl

theorem pagetable_setProc {i : ℕ} {change : Process → Process}
    (keeps : (change (k.procs i)).pagetable = (k.procs i).pagetable) (pid : ℕ) :
    ((k.setProc i change).procs pid).pagetable = (k.procs pid).pagetable := by
  by_cases here : pid = i
  · subst here
    rw [Kernel.setProc_procs_self, keeps]
  · rw [Kernel.setProc_procs_of_ne _ _ _ here]

theorem pteOf_setProc {i : ℕ} {change : Process → Process}
    (keeps : (change (k.procs i)).pagetable = (k.procs i).pagetable) (pid va : ℕ) :
    pteOf (k.setProc i change) pid va = pteOf k pid va := by
  rw [pteOf, pteOf, rootOf, rootOf, pagetable_setProc keeps]
  rfl

/-- Changing fields of a process other than its page table; it may become a `ZOMBIE`. -/
theorem Space.onlySetProc (space : Space S k own) {i : ℕ} {change : Process → Process}
    (keeps : (change (k.procs i)).pagetable = (k.procs i).pagetable)
    (status : (k.procs i).status = .ZOMBIE → (change (k.procs i)).status = .ZOMBIE) :
    Only S (· = i) k own (k.setProc i change) own := by
  refine ⟨space.restrict rfl rfl rfl rfl ?_, fun _ held => ⟨held.free, held.taken, held.kept, held.small⟩,
    fun _ inside => inside, fun pid other => Kernel.setProc_procs_of_ne _ _ _ other, ?_, rfl, rfl⟩
  · intro pid inside
    by_cases here : pid = i
    · subst here
      rw [HasSpace, Kernel.setProc_procs_self, keeps] at inside
      rw [Kernel.setProc_procs_self, keeps]
      exact ⟨⟨inside.1, inside.2.1, fun zombie => inside.2.2 (status zombie)⟩, rfl⟩
    · rw [HasSpace, Kernel.setProc_procs_of_ne _ _ _ here] at inside
      rw [Kernel.setProc_procs_of_ne _ _ _ here]
      exact ⟨inside, rfl⟩
  · intro pid _ _ va
    exact pteOf_setProc keeps pid va

theorem hasSpace_setProc {i pid : ℕ} {change : Process → Process}
    (keeps : ∀ p, (change p).pagetable = p.pagetable ∧ (change p).status = p.status) :
    HasSpace (k.setProc i change) pid ↔ HasSpace k pid := by
  by_cases here : pid = i
  · subst here
    rw [HasSpace, HasSpace, Kernel.setProc_procs_self, (keeps _).1, (keeps _).2]
  · rw [HasSpace, HasSpace, Kernel.setProc_procs_of_ne _ _ _ here]

/-- Such a change as a step of a program. -/
theorem Space.stepProc (space : Space S k own) {i : ℕ} {α : Type} {rest : Exec (Kernel σ) α}
    {post : α → Kernel σ → Prop} {change : Process → Process}
    (keeps : ∀ p, (change p).pagetable = p.pagetable ∧ (change p).status = p.status)
    (next : ∀ k', Only S (· = i) k own k' own → (HasSpace k i → HasSpace k' i) →
      k'.procs i = change (k.procs i) →
      (∀ va, pteOf k' i va = pteOf k i va) → Yields rest k' post) :
    Yields (do modify fun k => k.setProc i change; rest) k post :=
  Ensures.step (modify_apply _ _) (next _ (space.onlySetProc (keeps _).1 fun zombie => (keeps _).2.trans zombie)
    (hasSpace_setProc keeps).mpr (Kernel.setProc_procs_self ..) fun va => pteOf_setProc (keeps _).1 i va)

/-- Storing into a page that is no table. -/
theorem Space.onlySetPage (space : Space S k own) {f : ℕ} (free : own f = none) (words : ℕ → ℕ) :
    Only S who k own (k.setPage f words) own where
  space := space.setData free words
  held _ held := ⟨held.free, held.taken, held.kept, held.small⟩
  taken _ inside := inside
  procs _ _ := rfl
  ptes _ _ inside va := space.dataPte free words inside va
  current := rfl
  tp := rfl

/-- A page that was just allocated becomes the empty root of a process. -/
private theorem Only.newRoot {k₀ : Kernel σ} {own₀ : Owner} {i f : ℕ} (before : Only S (· = i) k₀ own₀ k own)
    (fresh : f ∉ handed k₀.trace) (held : Held S k own f) (ram : KERN_BASE ≤ f * PGSIZE)
    (unmapped : ¬ Mapped k f) (image : f ≠ trapSec) (bound : i < NPROC)
    (status : (k.procs i).status ≠ .ZOMBIE) :
    let k' := (k.setProc i fun p => { p with pagetable := f * PGSIZE }).setPage f fun _ => 0
    Only S (· = i) k₀ own₀ k' (Function.update own f (some (f, []))) ∧ HasSpace k' i ∧
      k'.procs i = { k.procs i with pagetable := f * PGSIZE } ∧ ∀ va, pteOf k' i va = 0 := by
  intro k'
  have space := before.space
  have page : f * PGSIZE / PGSIZE = f := Nat.mul_div_cancel _ (by decide)
  have procs : ∀ pid, pid ≠ i → k'.procs pid = k.procs pid := fun pid other => Function.update_of_ne other _ _
  have self : k'.procs i = { k.procs i with pagetable := f * PGSIZE } := Function.update_self ..
  have root : rootOf k' i = f := by rw [rootOf, self, page]
  have notFresh : ∀ {t q}, own t = some q → t ≠ f := by
    rintro t q named rfl
    rw [held.free] at named
    exact absurd named (by simp)
  have outside : ∀ pid, pid ≠ i → HasSpace k' pid → HasSpace k pid := fun pid other inside => by
    rwa [HasSpace, procs pid other] at inside
  have ptes : ∀ pid, pid ≠ i → HasSpace k pid → ∀ va, pteOf k' pid va = pteOf k pid va := by
    intro pid other inside va
    rw [pteOf, rootOf, procs pid other]
    exact space.tables.translate_data held.free _ (space.roots pid inside)
  have empty : ∀ va, pteOf k' i va = 0 := by
    intro va
    have blank : k'.mem f = fun _ => 0 := Function.update_self ..
    rw [pteOf, root, translate, leafTable]
    simp only [blank, not_has_zero, Bool.false_eq_true, if_false]
  have fits : HasSpace k' i := by
    rw [HasSpace, self]
    exact ⟨bound, ram_ne_zero ram, status⟩
  have roots : ∀ pid, pid ≠ i → HasSpace k' pid → rootOf k' pid = rootOf k pid ∧
      own (rootOf k pid) = some (rootOf k pid, []) :=
    fun pid other inside => ⟨by rw [rootOf, rootOf,
      procs pid other], space.roots pid (outside pid other inside)⟩
  have shape : Shape trapSec k' (Function.update own f (some (f, []))) := by
    refine ⟨⟨?_, ?_⟩, ?_, ?_, ?_, ?_, ?_⟩
    · intro t r p named
      by_cases here : t = f
      · subst here
        rw [Function.update_self] at named
        obtain ⟨-, rfl⟩ := Prod.mk.inj (Option.some.inj named)
        simp
      · rw [Function.update_of_ne here] at named
        exact space.tables.depth t r p named
    · intro t r p named short j index nonzero
      by_cases here : t = f
      · subst here
        have blank : k'.mem t = fun _ => 0 := Function.update_self ..
        rw [blank] at nonzero
        exact absurd rfl nonzero
      · have same : k'.mem t j = k.mem t j := congrFun (Function.update_of_ne here _ _) j
        rw [same] at nonzero ⊢
        rw [Function.update_of_ne here] at named
        obtain ⟨valid, small, child⟩ := space.tables.below t r p named short j index nonzero
        exact ⟨valid, small, by rwa [Function.update_of_ne (notFresh child)]⟩
    · rw [Function.update_of_ne image.symm]
      exact space.image
    · intro g named
      by_cases here : g = f
      · subst here
        exact held.taken
      · rw [Function.update_of_ne here] at named
        exact space.reserved g named
    · intro pid inside
      by_cases here : pid = i
      · subst here
        rw [root, Function.update_self]
      · obtain ⟨same, named⟩ := roots pid here inside
        rw [same, Function.update_of_ne (notFresh named), named]
    · intro pid pid' inside inside' equal
      by_cases here : pid = i <;> by_cases here' : pid' = i
      · rw [here, here']
      · subst here
        obtain ⟨same, named⟩ := roots pid' here' inside'
        rw [root, same] at equal
        exact absurd equal.symm (notFresh named)
      · subst here'
        obtain ⟨same, named⟩ := roots pid here inside
        rw [root, same] at equal
        exact absurd equal (notFresh named)
      · rw [(roots pid here inside).1, (roots pid' here' inside').1] at equal
        exact space.distinct pid pid' (outside pid here inside) (outside pid' here' inside') equal
    · intro pid inside va valid
      by_cases here : pid = i
      · subst here
        rw [empty, not_has_zero] at valid
        exact absurd valid (by decide)
      · have old := outside pid here inside
        rw [ptes pid here old] at valid ⊢
        obtain ⟨data, small⟩ := space.leaves pid old va valid
        refine ⟨?_, small⟩
        rw [Function.update_of_ne ?_]
        · exact data
        · intro equal
          exact unmapped ⟨pid, old, va, valid, equal⟩
  refine ⟨⟨⟨shape, S.stable (k := k) rfl rfl rfl space.ok, ?_⟩, ?_, before.taken, ?_, ?_, before.current,
    before.tp⟩, fits, self, empty⟩
  · rintro g ⟨pid, inside, va, valid, frame⟩
    by_cases here : pid = i
    · subst here
      rw [empty, not_has_zero] at valid
      exact absurd valid (by decide)
    · have old := outside pid here inside
      rw [ptes pid here old] at valid frame
      exact space.kept g ⟨pid, old, va, valid, frame⟩
  · intro g old
    obtain ⟨data, taken, kept, small⟩ := before.held g old
    refine ⟨?_, taken, kept, small⟩
    rw [Function.update_of_ne ?_]
    · exact data
    · rintro rfl
      exact fresh old.taken
  · intro pid other
    rw [procs pid other, before.procs pid other]
  · intro pid other inside va
    rw [ptes pid other ((before.hasSpace other).mpr inside), before.ptes pid other inside]

end

/-- The page of the user stack. -/
def STACK_PAGE : ℕ := USER_STACK_TOP - PGSIZE

private theorem pageOf_ne_ram {va pa : ℕ} (below : va < STACK_PAGE) (ram : KERN_BASE ≤ pa) (high : pa < MAXVA) :
    pageOf va ≠ pageOf pa := by
  simp only [pageOf, PGSIZE, STACK_PAGE, USER_STACK_TOP, KERN_BASE, MAXVA] at *
  omega

private theorem pageOf_ne_stack {va : ℕ} (below : va < STACK_PAGE) : pageOf va ≠ pageOf STACK_PAGE := by
  simp only [pageOf, PGSIZE, STACK_PAGE, USER_STACK_TOP] at *
  omega

/-- A valid leaf entry that the user can access. -/
def UserLeaf (pte : ℕ) : Prop := has pte PTE_V = true ∧ has pte PTE_U = true

/-- The flags of an entry are those it was made with. -/
theorem has_leaf {n : ℕ} (low : n < 10) (f perm : ℕ) :
    has (f * 2 ^ 10 ||| perm ||| PTE_V) (2 ^ n) = has (perm ||| PTE_V) (2 ^ n) := by
  rw [has_eq_testBit, has_eq_testBit, Nat.lor_assoc, Nat.testBit_or, Nat.testBit_mul_two_pow]
  simp only [Bool.or_eq_right_iff_imp, Bool.and_eq_true, decide_eq_true_eq]
  omega

/-- The fields of a process structure that `alloc_process` returns. -/
structure NewProcess (p : Process) : Prop where
  status : p.status = .FREE
  total : p.totalMappedRegion = 4
  regions : ∃ frame image : ℕ, 0 < frame ∧ 0 < image ∧ p.regions =
    Function.update (Function.update (Function.update (Function.update (fun _ => zeroRegion)
      0 ⟨STACK_PAGE, 1, .STACK_SEGMENT⟩) 1 ⟨frame, 1, .CONTEXT_SEGMENT⟩) 2 ⟨image, 1, .SYSTEM_SEGMENT⟩)
      3 ⟨USER_FREE_ADDRESS_START, 0, .HEAP_SEGMENT⟩
  heapTop : p.userHeap.heapTop = USER_FREE_ADDRESS_START
  heapBottom : p.userHeap.heapBottom = USER_FREE_ADDRESS_START
  count : p.userHeap.freePagesCount = 0

/-- The leaf entries of a process that `alloc_process` returns: the user can access the stack page only, and
nothing is mapped below it. -/
structure NewSpace (pte : ℕ → ℕ) (f : ℕ) : Prop where
  stack : pte STACK_PAGE = f * 2 ^ 10 ||| protToType true true false true ||| PTE_V
  user : ∀ va, UserLeaf (pte va) → pageOf va = pageOf STACK_PAGE
  low : ∀ va < STACK_PAGE, has (pte va) PTE_V = false

/-- The fixed regions other than the heap are mapped. -/
def FixedMapped (p : Process) (pte : ℕ → ℕ) : Prop := ∀ j < 3, has (pte (p.regions j).va) PTE_V = true

/-- What `alloc_process` does. -/
structure Spawned (S : Supply env trapSec) (k : Kernel σ) (own : Owner) (i : ℕ) (k' : Kernel σ)
    (own' : Owner) : Prop where
  only : Only S (· = i) k own k' own'
  found : freeProcess? k.procs = some i
  inside : HasSpace k' i
  fields : NewProcess (k'.procs i)
  leaves : ∃ f, NewSpace (pteOf k' i) f ∧
    ∀ pid, pid ≠ i → HasSpace k pid → ∀ va, has (pteOf k pid va) PTE_V = true → frameOf (pteOf k pid va) ≠ f

theorem trivialStops (env : PageEnv σ) : AllocStops env fun _ => True := fun _ _ _ _ => trivial

section

variable {k : Kernel σ} {own : Owner}

/-- `alloc_page` as a step that touches no process. -/
theorem Space.takePage (space : Space S k own) (who : ℕ → Prop) :
    Yields env.allocPage k fun pa k' => ∃ f, pa = f * PGSIZE ∧ KERN_BASE ≤ f * PGSIZE ∧ f ∉ handed k.trace ∧
      f ≠ trapSec ∧ ¬ Mapped k f ∧ Held S k' own f ∧ Only S who k own k' own ∧ k'.procs = k.procs ∧
      (∀ pid va, pteOf k' pid va = pteOf k pid va) := by
  refine Ensures.mono (space.alloc (trivialStops env)) ?_
  rintro pa _ ⟨f, pool, rfl, ram, fresh, image, unmapped, held, rfl, grown⟩
  exact ⟨f, rfl, ram, fresh, image, unmapped, held, grown.only space, rfl, fun _ _ => rfl⟩

/-- A page that may be mapped: it is no table, and it is held, mapped already, or the page of the
trap vector. -/
structure Mappable (S : Supply env trapSec) (k : Kernel σ) (own : Owner) (f : ℕ) : Prop where
  free : own f = none
  small : f < 2 ^ 44
  source : f ∈ S.Kept k.trace ∨ f = trapSec
  inUse : f = trapSec ∨ f ∈ handed k.trace ∨ Mapped k f

theorem Held.mappable {f : ℕ} (held : Held S k own f) : Mappable S k own f :=
  ⟨held.free, held.small, Or.inl held.kept, Or.inr (Or.inl held.taken)⟩

/-- Mapping a page into a process. -/
theorem Space.mapInto (space : Space S k own) {pid va f perm : ℕ} (inside : HasSpace k pid)
    (aligned : va % PGSIZE = 0) (word : va < WORD) (flags : perm < 2 ^ 10) (page : Mappable S k own f) :
    Yields (userVmMap env (k.procs pid).pagetable va PGSIZE (f * PGSIZE) perm) k fun _ k' =>
    0 < va ∧ va < MAXVA ∧
      has (pteOf k pid va) PTE_V = false ∧ ∃ own', Only S (· = pid) k own k' own' ∧ k'.procs = k.procs ∧
      ∀ va', pteOf k' pid va' = if pageOf va' = pageOf va then f * 2 ^ 10 ||| perm ||| PTE_V
      else pteOf k pid va' := by
  refine Ensures.mono (space.mapPage (trivialStops env) inside aligned word flags page.small page.free
    page.source page.inUse
    (fun _ _ => trivial) fun _ _ => trivial) ?_
  rintro _ k' ⟨low, high, unmapped, own', edited⟩
  refine ⟨low, high, unmapped, own', edited.only, edited.procs, fun va' => ?_⟩
  rw [edited.ptes pid inside, editPte]
  simp only [true_and]

/-- Mapping a page into a process and entering it in the region table. -/
theorem Space.mapRegion (space : Space S k own) {pid va pa f perm r n : ℕ} {region : MappedRegion} {α : Type}
    {rest : Exec (Kernel σ) α} {post : α → Kernel σ → Prop} (inside : HasSpace k pid)
    (root : (k.procs pid).pagetable = r) (aligned : va % PGSIZE = 0)
    (word : va < WORD) (flags : perm < 2 ^ 10) (page : Mappable S k own f) (address : f * PGSIZE = pa)
    (next : ∀ k' own', 0 < va → va < MAXVA → has (pteOf k pid va) PTE_V = false →
      Only S (· = pid) k own k' own' → HasSpace k' pid →
      k'.procs pid = (k.procs pid).setRegion n region →
      (∀ va', pteOf k' pid va' = if pageOf va' = pageOf va then f * 2 ^ 10 ||| perm ||| PTE_V
        else pteOf k pid va') →
      Yields rest k' post) :
    Yields (do userVmMap env r va PGSIZE pa perm; modify fun k => k.setProc pid fun p =>
      p.setRegion n region; rest)
      k post := by
  have same : ∀ p : Process, (p.setRegion n region).pagetable = p.pagetable ∧
      (p.setRegion n region).status = p.status :=
    fun _ => ⟨rfl, rfl⟩
  rw [← root, ← address]
  refine Ensures.bind (space.mapInto inside aligned word flags page) ?_
  rintro _ k₁ ⟨low, high, unmapped, own₁, only₁, procs₁, ptes₁⟩
  refine Ensures.step (modify_apply _ _) ?_
  have inside₁ : HasSpace k₁ pid := by rwa [HasSpace, procs₁]
  refine next _ own₁ low high unmapped (only₁.trans (only₁.space.onlySetProc rfl id))
    ((hasSpace_setProc same).mpr inside₁) ?_ ?_
  · rw [Kernel.setProc_procs_self, procs₁]
  · intro va'
    rw [pteOf_setProc (same _).1, ptes₁]

end

theorem trapSec_page (lay : Layout) : lay.trapSecStart / PGSIZE * PGSIZE = lay.trapSecStart :=
  Nat.div_mul_cancel (Nat.dvd_of_mod_eq_zero lay.aligned)

theorem trapSec_small (lay : Layout) : lay.trapSecStart / PGSIZE < 2 ^ 44 := by
  have top := lay.top
  simp only [PGSIZE, DRAM_BASE, PKE_MAX_ALLOWABLE_RAM] at *
  omega

theorem trapSec_word (lay : Layout) : lay.trapSecStart < WORD := by
  have top := lay.top
  simp only [WORD, DRAM_BASE, PKE_MAX_ALLOWABLE_RAM] at *
  omega

theorem page_word {f : ℕ} (small : f < 2 ^ 44) : f * PGSIZE < WORD := by
  simp only [WORD, PGSIZE]
  omega

section

variable {lay : Layout} {S : Supply env (lay.trapSecStart / PGSIZE)} {k : Kernel σ} {own : Owner}

private theorem Space.trapSec_mappable (space : Space S k own) : Mappable S k own (lay.trapSecStart / PGSIZE) :=
  ⟨space.image, (trapSec_small lay), Or.inr rfl, Or.inl rfl⟩

/-- The last part of `alloc_process`: the mappings and the region table. -/
private theorem spawn_maps (space : Space S k own) {i r tf f : ℕ} (inside : HasSpace k i)
    (root : (k.procs i).pagetable = r) (regions : (k.procs i).regions = fun _ => zeroRegion)
    (status : (k.procs i).status = .FREE) (frame : Held S k own tf) (ram : KERN_BASE ≤ tf * PGSIZE)
    (stack : Held S k own f) (empty : ∀ va, pteOf k i va = 0) :
    Yields (do
      userVmMap env r (USER_STACK_TOP - PGSIZE) PGSIZE (f * PGSIZE) (protToType true true false true)
      modify fun k => k.setProc i fun p => p.setRegion 0 ⟨USER_STACK_TOP - PGSIZE, 1, .STACK_SEGMENT⟩
      userVmMap env r (tf * PGSIZE) PGSIZE (tf * PGSIZE) (protToType true true false false)
      modify fun k => k.setProc i fun p => p.setRegion 1 ⟨tf * PGSIZE, 1, .CONTEXT_SEGMENT⟩
      userVmMap env r lay.trapSecStart PGSIZE lay.trapSecStart (protToType true false true false)
      modify fun k => k.setProc i fun p => p.setRegion 2 ⟨lay.trapSecStart, 1, .SYSTEM_SEGMENT⟩
      modify fun k => k.setProc i fun p =>
        { p with userHeap := { p.userHeap with
            heapTop := USER_FREE_ADDRESS_START, heapBottom := USER_FREE_ADDRESS_START, freePagesCount := 0 } }
      modify fun k => k.setProc i fun p => p.setRegion 3 ⟨USER_FREE_ADDRESS_START, 0, .HEAP_SEGMENT⟩
      modify fun k => k.setProc i fun p => { p with totalMappedRegion := 4 }
      return i) k fun j k' => j = i ∧ ∃ own', Only S (· = i) k own k' own' ∧ HasSpace k' i ∧
        NewProcess (k'.procs i) ∧
        NewSpace (pteOf k' i) f ∧ FixedMapped (k'.procs i) (pteOf k' i) := by
  refine space.mapRegion inside root (by decide) (by decide) (by decide) stack.mappable rfl ?_
  intro k₁ own₁ _ _ _ only₁ inside₁ proc₁ ptes₁
  rw [show USER_STACK_TOP - PGSIZE = STACK_PAGE from rfl] at ptes₁
  refine only₁.space.mapRegion inside₁ (by rw [proc₁]; exact root) (Nat.mul_mod_left _ _)
    (page_word frame.small) (by decide)
    (only₁.held tf frame).mappable rfl ?_
  intro k₂ own₂ low₂ high₂ unmapped₂ only₂ inside₂ proc₂ ptes₂
  refine only₂.space.mapRegion inside₂ (by rw [proc₂, proc₁]; exact root) lay.aligned
    (trapSec_word lay) (by decide)
    only₂.space.trapSec_mappable (trapSec_page lay) ?_
  intro k₃ own₃ low₃ high₃ unmapped₃ only₃ inside₃ proc₃ ptes₃
  refine only₃.space.stepProc (fun _ => ⟨rfl, rfl⟩) fun k₄ only₄ inside₄ proc₄ ptes₄ => ?_
  refine only₄.space.stepProc (fun _ => ⟨rfl, rfl⟩) fun k₅ only₅ inside₅ proc₅ ptes₅ => ?_
  refine only₅.space.stepProc (fun _ => ⟨rfl, rfl⟩) fun k₆ only₆ inside₆ proc₆ ptes₆ => ?_
  have ptes : ∀ va, pteOf k₆ i va = pteOf k₃ i va := fun va => by rw [ptes₆, ptes₅, ptes₄]
  refine ⟨rfl, own₃, only₁.trans (only₂.trans (only₃.trans (only₄.trans (only₅.trans only₆)))),
    inside₆ (inside₅ (inside₄ inside₃)), ?_, ⟨?_, ?_, ?_⟩, ?_⟩
  · simp only [proc₆, proc₅, proc₄, proc₃, proc₂, proc₁, Process.setRegion]
    exact ⟨status, rfl, ⟨tf * PGSIZE, lay.trapSecStart, low₂, low₃, by rw [regions]; rfl⟩, rfl, rfl, rfl⟩
  · have stackFlags : has (f * 2 ^ 10 ||| protToType true true false true ||| PTE_V) PTE_V = true :=
      has_valid_or _
    have first : pageOf STACK_PAGE ≠ pageOf (tf * PGSIZE) := by
      intro same
      rw [pteOf_congr same.symm, ptes₁, if_pos rfl, stackFlags] at unmapped₂
      exact absurd unmapped₂ (by decide)
    have second : pageOf STACK_PAGE ≠ pageOf lay.trapSecStart := by
      intro same
      rw [pteOf_congr same.symm, ptes₂, if_neg first, ptes₁, if_pos rfl, stackFlags] at unmapped₃
      exact absurd unmapped₃ (by decide)
    rw [ptes, ptes₃, if_neg second, ptes₂, if_neg first, ptes₁]
    exact if_pos rfl
  · rintro va ⟨valid, user⟩
    rw [ptes, ptes₃] at valid user
    split_ifs at valid user
    · rw [show PTE_U = 2 ^ 4 from rfl, has_leaf (by decide)] at user
      exact absurd user (by decide)
    · rw [ptes₂] at valid user
      split_ifs at valid user
      · rw [show PTE_U = 2 ^ 4 from rfl, has_leaf (by decide)] at user
        exact absurd user (by decide)
      · rw [ptes₁] at valid
        split_ifs at valid with here
        · exact here
        · rw [empty, not_has_zero] at valid
          exact absurd valid (by decide)
  · intro va below
    rw [ptes, ptes₃, if_neg (pageOf_ne_ram below lay.image high₃), ptes₂,
      if_neg (pageOf_ne_ram below ram high₂), ptes₁, if_neg (pageOf_ne_stack below), empty, not_has_zero]
  · -- an entry that was made stays valid
    have later₃ : ∀ va, has (pteOf k₂ i va) PTE_V = true → has (pteOf k₆ i va) PTE_V = true := by
      intro va valid
      rw [ptes, ptes₃]
      split_ifs
      · exact has_valid_or _
      · exact valid
    have later₂ : ∀ va, has (pteOf k₁ i va) PTE_V = true → has (pteOf k₆ i va) PTE_V = true := by
      intro va valid
      apply later₃
      rw [ptes₂]
      split_ifs
      · exact has_valid_or _
      · exact valid
    intro j below
    simp only [proc₆, proc₅, proc₄, proc₃, proc₂, proc₁, Process.setRegion]
    obtain rfl | rfl | rfl : j = 0 ∨ j = 1 ∨ j = 2 := by omega
    · apply later₂
      rw [ptes₁]
      exact (congrArg (has · PTE_V) (if_pos rfl)).trans (has_valid_or _)
    · apply later₃
      rw [ptes₂]
      exact (congrArg (has · PTE_V) (if_pos rfl)).trans (has_valid_or _)
    · rw [ptes, ptes₃]
      exact (congrArg (has · PTE_V) (if_pos rfl)).trans (has_valid_or _)

theorem freeProcess?_some {procs : ℕ → Process} {i : ℕ} (found : freeProcess? procs = some i) :
    i < NPROC ∧ (procs i).status = .FREE :=
  ⟨List.mem_range.mp (List.mem_of_find?_eq_some found), by simpa using List.find?_some found⟩

/-- `alloc_process`, with the mappings of the fixed regions. -/
theorem Space.allocProcess_fixed (space : Space S k own) :
    Yields (allocProcess env lay) k fun i k' => ∃ own', Spawned S k own i k' own' ∧
    FixedMapped (k'.procs i) (pteOf k' i) := by
  rw [Model.allocProcess]
  refine Ensures.step (get_apply k) ?_
  cases found : freeProcess? k.procs with
  | none => trivial
  | some i =>
    obtain ⟨bound, status⟩ := freeProcess?_some found
    refine Ensures.step (modify_apply _ _) ?_
    have only₀ : Only S (· = i) k own (k.record (.create i)) own := space.onlyRecord trivial
    refine Ensures.bind (only₀.space.takePage (· = i)) ?_
    rintro _ k₁ ⟨tf, rfl, ramF, _, _, _, frame₁, only₁, procs₁, _⟩
    refine only₁.space.stepProc (fun _ => ⟨rfl, rfl⟩) fun k₂ only₂ _ proc₂ _ => ?_
    have status₂ : (k₂.procs i).status = .FREE := by rw [proc₂, procs₁]; exact status
    refine Ensures.bind (only₂.space.takePage (· = i)) ?_
    rintro _ k₃ ⟨r, rfl, ram, fresh, image, unmapped, root₃, only₃, procs₃, ptes₃⟩
    refine Ensures.step (modify_apply _ _) ?_
    refine Ensures.step (modify_apply _ _) ?_
    have unmapped₃ : ¬ Mapped k₃ r := by
      rintro ⟨pid, inside, va, valid, same⟩
      rw [HasSpace, procs₃] at inside
      rw [ptes₃] at valid same
      exact unmapped ⟨pid, inside, va, valid, same⟩
    obtain ⟨only₄, inside₄, proc₄, empty₄⟩ := only₃.newRoot fresh root₃ ram unmapped₃ image bound
      (by rw [procs₃, status₂]; decide)
    rw [Nat.mul_div_cancel r (show 0 < PGSIZE by decide)]
    generalize (k₃.setProc i fun p => { p with pagetable := r * PGSIZE }).setPage r (fun _ => 0) = k₄ at *
    have frame₄ := only₄.held tf (only₂.held tf frame₁)
    refine Ensures.bind (only₄.space.takePage (· = i)) ?_
    rintro _ k₅ ⟨_, rfl, _, _, _, _, _, only₅, procs₅, ptes₅⟩
    refine only₅.space.stepProc (fun _ => ⟨rfl, rfl⟩) fun k₆ only₆ inside₆ proc₆ ptes₆ => ?_
    refine Ensures.bind (only₆.space.takePage (· = i)) ?_
    rintro _ k₇ ⟨f, rfl, _, _, _, unmapped₆, stack₇, only₇, procs₇, ptes₇⟩
    refine only₇.space.stepProc (fun _ => ⟨rfl, rfl⟩) fun k₈ only₈ inside₈ proc₈ ptes₈ => ?_
    refine Ensures.bind (only₈.space.takePage (· = i)) ?_
    rintro _ k₉ ⟨_, rfl, _, _, _, _, _, only₉, procs₉, ptes₉⟩
    refine only₉.space.stepProc (fun _ => ⟨rfl, rfl⟩) fun k₁₀ only₁₀ inside₁₀ proc₁₀ ptes₁₀ => ?_
    have only₀₆ := only₀.trans (only₁.trans (only₂.trans (only₄.trans (only₅.trans only₆))))
    have only₇₁₀ := only₈.trans (only₉.trans only₁₀)
    have stack := only₇₁₀.held f stack₇
    have frame := only₇₁₀.held tf (only₇.held tf (only₆.held tf (only₅.held tf frame₄)))
    have live₆ : HasSpace k₆ i := inside₆ (by rwa [HasSpace, procs₅])
    have live₈ : HasSpace k₈ i := inside₈ (by rw [HasSpace, procs₇]; exact live₆)
    have inside : HasSpace k₁₀ i := inside₁₀ (by rw [HasSpace, procs₉]; exact live₈)
    refine Ensures.mono (spawn_maps only₁₀.space inside ?_ ?_ ?_ frame ramF stack ?_) ?_
    · rw [proc₁₀, procs₉, proc₈, procs₇, proc₆, procs₅, proc₄]
    · rw [proc₁₀]
    · rw [proc₁₀, procs₉, proc₈, procs₇, proc₆, procs₅, proc₄, procs₃]
      exact status₂
    · intro va
      rw [ptes₁₀, ptes₉, ptes₈, ptes₇, ptes₆, ptes₅, empty₄]
    · rintro _ k' ⟨rfl, own', only, inside', fields, leaves, fixed⟩
      refine ⟨own', ⟨only₀₆.trans (only₇.trans (only₇₁₀.trans only)), found, inside', fields, f,
        leaves, ?_⟩, fixed⟩
      intro pid other old va valid same
      rw [← only₀₆.ptes pid other old] at valid same
      exact unmapped₆ ⟨pid, (only₀₆.hasSpace other).mpr old, va, valid, same⟩

/-- `alloc_process`. -/
theorem Space.allocProcess (space : Space S k own) :
    Yields (allocProcess env lay) k fun i k' => ∃ own', Spawned S k own i k' own' := by
  refine Ensures.mono space.allocProcess_fixed ?_
  rintro i k' ⟨own', spawned, _⟩
  exact ⟨own', spawned⟩

end

end Pke.Proofs
