import Pke.Proofs.Forest
import Pke.Proofs.HeapCalls
import Pke.Proofs.PageFaults

/-! # System calls on the page tables of all processes

Creating and loading a process and the heap calls keep the page tables of all processes apart, as
long as the allocator hands out pages that are not in use and no page table is released. `Planted`
is what `alloc_process` does: it takes a page for the user stack, and every other page that it takes
is one of the kernel's own pages of the process.
-/

namespace Pke.Proofs

open Pke.Lib Pke.Model

variable {σ : Type} {env : PageEnv σ} {trapSec : ℕ}

/-- A supply that never hands out the page of the trap vector. -/
structure UserPages (env : PageEnv σ) (trapSec : ℕ) extends Pages env trapSec where
  image : ∀ {k : Kernel σ} {pa : ℕ} {pool : σ}, Ok k → env.alloc k = .ok pa pool → pa / PGSIZE ≠ trapSec

def pmmUserPages (lay : Layout) : UserPages pmmEnv (lay.trapSecStart / PGSIZE) where
  toPages := pmmPages lay
  image ok call := by
    obtain ⟨f, rfl, _, _, _, image, _⟩ := PoolOk.alloc ok call
    rwa [page_div]

/-- The pages in use after pages were taken. -/
theorem handed_append (frames : List ℕ) (trace : List PageEvent) :
    handed (frames.map (fun f => PageEvent.alloc (f * PGSIZE)) ++ trace) = frames ++ handed trace := by
  induction frames with
  | nil => rfl
  | cons f frames ih => rw [List.map_cons, List.cons_append, handed_alloc, ih, List.cons_append]

/-- The part of `alloc_process` before the mappings: these pages were taken, and pages in use are
untouched. -/
structure Taken (P : UserPages env trapSec) (k : Kernel σ) (i : ℕ) (frames : List ℕ)
    (k' : Kernel σ) : Prop where
  ok : P.Ok k'
  trace : k'.trace = frames.map (fun f => .alloc (f * PGSIZE)) ++ .create i :: k.trace
  others : ∀ j, j ≠ i → k'.procs j = k.procs j
  mem : ∀ f ∈ handed k.trace, k'.mem f = k.mem f
  fresh : ∀ f ∈ frames, f ∉ handed k.trace
  physical : ∀ f ∈ frames, KERN_BASE ≤ f * PGSIZE ∧ f < 2 ^ 44 ∧ f ≠ trapSec
  distinct : frames.Nodup

namespace Taken

variable {P : UserPages env trapSec} {k k' : Kernel σ} {i : ℕ} {frames : List ℕ}

theorem start (ok : P.Ok k) (i : ℕ) : Taken P k i [] (k.record (.create i)) :=
  ⟨P.logged trivial ok, rfl, fun _ _ => rfl, fun _ _ => rfl, by simp, by simp, List.nodup_nil⟩

/-- One more page is taken. -/
theorem take (taken : Taken P k i frames k') : Yields env.allocPage k' fun pa k'' => ∃ f pool, pa = f * PGSIZE ∧
    k'' = k'.took (f * PGSIZE) pool ∧ Taken P k i (f :: frames) k'' := by
  rw [Yields, Ensures, PageEnv.allocPage]
  cases call : env.alloc k' with
  | error e pool => trivial
  | ok pa pool =>
    obtain ⟨f, rfl, ram, small, unused, ok⟩ := P.fresh taken.ok call
    have image := P.image taken.ok call
    rw [page_div] at image
    rw [taken.trace, handed_append, List.mem_append, not_or] at unused
    refine ⟨f, pool, rfl, rfl, ok, congrArg (PageEvent.alloc (f * PGSIZE) :: ·) taken.trace,
      taken.others, taken.mem, fun g member => ?_, fun g member => ?_,
      List.nodup_cons.mpr ⟨unused.1, taken.distinct⟩⟩
    · rcases List.mem_cons.mp member with rfl | old
      · exact unused.2
      · exact taken.fresh g old
    · rcases List.mem_cons.mp member with rfl | old
      · exact ⟨ram, small, image⟩
      · exact taken.physical g old

theorem setProc (taken : Taken P k i frames k') (change : Process → Process) :
    Taken P k i frames (k'.setProc i change) := by
  refine ⟨P.stable (k := k') rfl rfl rfl taken.ok, taken.trace, fun j other => ?_, taken.mem, taken.fresh,
    taken.physical, taken.distinct⟩
  rw [Kernel.setProc_procs_of_ne _ _ _ other]
  exact taken.others j other

/-- A page that was taken is filled. -/
theorem setPage (taken : Taken P k i frames k') {f : ℕ} (member : f ∈ frames) (words : ℕ → ℕ) :
    Taken P k i frames (k'.setPage f words) := by
  refine ⟨P.stable (k := k') rfl rfl rfl taken.ok, taken.trace, taken.others, fun g inUse => ?_, taken.fresh,
    taken.physical, taken.distinct⟩
  refine Eq.trans (Function.update_of_ne ?_ _ _) (taken.mem g inUse)
  rintro rfl
  exact taken.fresh g member inUse

theorem inUse (taken : Taken P k i frames k') {f : ℕ} (member : f ∈ frames) : f ∈ handed k'.trace := by
  rw [taken.trace, handed_append]
  exact List.mem_append_left _ member

end Taken

/-- The owner function of an empty page table. -/
def soleRoot (r : ℕ) : Owner := Function.update (fun _ => none) r (some (r, []))

theorem soleRoot_named {r t : ℕ} {q : ℕ × List ℕ} (named : soleRoot r t = some q) : t = r ∧ q = (r, []) := by
  by_cases here : t = r
  · rw [here, soleRoot, Function.update_self] at named
    exact ⟨here, (Option.some.inj named).symm⟩
  · rw [soleRoot, Function.update_of_ne here] at named
    cases named

/-- An empty page is the root of a page table. -/
private theorem rooted_soleRoot {mem : ℕ → ℕ → ℕ} {r : ℕ} (blank : mem r = fun _ => 0) :
    Rooted mem r (soleRoot r) := by
  refine ⟨⟨fun t r' p named => ?_, fun t r' p named _ i _ nonzero => ?_⟩, Function.update_self ..,
    fun t r' p named => ?_, fun t p named length => ?_⟩
  · obtain ⟨-, same⟩ := soleRoot_named named
    obtain ⟨-, rfl⟩ := Prod.mk.inj same
    exact Nat.zero_le 2
  · obtain ⟨rfl, -⟩ := soleRoot_named named
    rw [blank] at nonzero
    exact absurd rfl nonzero
  · obtain ⟨rfl, same⟩ := soleRoot_named named
    obtain ⟨rfl, rfl⟩ := Prod.mk.inj same
    exact ⟨rfl, rfl⟩
  · obtain ⟨-, same⟩ := soleRoot_named named
    obtain ⟨-, rfl⟩ := Prod.mk.inj same
    cases length

/-- The page is the trapframe, the kernel stack, the region table or a page table of the process. -/
def KernelPage (k : Kernel σ) (own : ℕ → Owner) (i f : ℕ) : Prop :=
  f * PGSIZE = (k.procs i).trapframe ∨ (f * PGSIZE + PGSIZE) % WORD = (k.procs i).kstack ∨
  f * PGSIZE = (k.procs i).mappedInfo ∨ own i f ≠ none

/-- What `alloc_process` does, where `s` is the page of the user stack. -/
structure Planted (P : UserPages env trapSec) (k : Kernel σ) (i s : ℕ) (k' : Kernel σ)
    (own' : ℕ → Owner) : Prop where
  ok : P.Ok k'
  forest : Forest k' own'
  found : freeProcess? k.procs = some i
  inside : HasSpace k' i
  status : (k'.procs i).status = .FREE
  others : ∀ j, j ≠ i → k'.procs j = k.procs j
  ptes : ∀ j, j ≠ i → HasSpace k j → ∀ va, pteOf k' j va = pteOf k j va
  pages : ∃ frames : List ℕ, k'.trace = frames.map (fun f => .alloc (f * PGSIZE)) ++ .create i ::
    k.trace ∧ s ∈ frames ∧
    ∀ f ∈ frames, f = s ∨ KernelPage k' own' i f
  loose : ¬ KernelPage k' own' i s
  stack : has (pteOf k' i STACK_PAGE) PTE_V = true ∧ PTE2PA (pteOf k' i STACK_PAGE) = s * PGSIZE
  entries : ∀ va, has (pteOf k' i va) PTE_V = true → pageOf va = pageOf STACK_PAGE ∨
    PTE2PA (pteOf k' i va) ≠ s * PGSIZE

theorem Builds.kernelPage {P : Pages env trapSec} {c f : ℕ} {k k' : Kernel σ} {own own' : ℕ → Owner}
    (builds : Builds P c k own k' own') (page : KernelPage k own c f) : KernelPage k' own' c f := by
  obtain ⟨_, trapframe, kstack, mappedInfo, _⟩ := builds.space
  rw [KernelPage, trapframe, kstack, mappedInfo]
  exact page.imp_right (Or.imp_right (Or.imp_right (builds.tables f)))

theorem Builds.loose {P : Pages env trapSec} {c f : ℕ} {k k' : Kernel σ} {own own' : ℕ → Owner}
    (builds : Builds P c k own k' own') (inUse : f ∈ handed k.trace) (page : ¬ KernelPage k own c f) :
    ¬ KernelPage k' own' c f := by
  obtain ⟨_, trapframe, kstack, mappedInfo, _⟩ := builds.space
  rw [KernelPage, trapframe, kstack, mappedInfo]
  refine mt (Or.imp_right (Or.imp_right (Or.imp_right fun named old => ?_))) page
  exact named (builds.data f inUse old)

/-- The page of an entry that was made for it. -/
theorem PTE2PA_entry {f perm : ℕ} (flags : perm < 2 ^ 10) (small : f < 2 ^ 44) :
    PTE2PA (PA2PTE (f * PGSIZE) ||| perm ||| PTE_V) = f * PGSIZE := by
  have frame : frameOf (f * 2 ^ 10 ||| perm ||| PTE_V) = f := frameOf_flags flags
  rw [PA2PTE_page, PTE2PA_eq (by rwa [frame]), frame]

section

variable {P : UserPages env trapSec} {k k' : Kernel σ} {own : ℕ → Owner} {i : ℕ}

/-- A page that was taken and cleared becomes the root of the process. -/
theorem Taken.root {frames : List ℕ} {r : ℕ} (taken : Taken P k i frames k') (forest : Forest k own)
    (member : r ∈ frames) (bound : i < NPROC) (status : (k'.procs i).status ≠ .ZOMBIE)
    (table : (k'.procs i).pagetable = r * PGSIZE) (blank : k'.mem r = fun _ => 0) :
    Forest k' (Function.update own i (soleRoot r)) ∧ HasSpace k' i ∧ (∀ va, pteOf k' i va = 0) ∧
      ∀ j, j ≠ i → HasSpace k j → ∀ va, pteOf k' j va = pteOf k j va := by
  have root : rootOf k' i = r := by rw [rootOf, table, page_div]
  have sameRoot : ∀ j, j ≠ i → rootOf k' j = rootOf k j := fun j other => by
    rw [rootOf, rootOf, taken.others j other]
  have rooted : Rooted k'.mem r (soleRoot r) := rooted_soleRoot blank
  refine ⟨?_, ⟨bound, ?_, status⟩, fun va => ?_, fun j other inside => ?_⟩
  · refine forest.change (fun j other inside => ⟨?_, sameRoot j other⟩)
      (fun j other inside t named => ?_) fun _ => ?_
    · rwa [HasSpace, taken.others j other] at inside
    · have old := forest.taken j inside t named
      refine ⟨Function.update_of_ne ?_ _ _, taken.mem t old, ?_⟩
      · rintro rfl
        exact taken.fresh t member old
      · rw [taken.trace, handed_append]
        exact List.mem_append_right _ old
    · rw [root]
      refine ⟨rooted, fun t named => ?_⟩
      obtain ⟨q, named⟩ := Option.ne_none_iff_exists'.mp named
      rw [(soleRoot_named named).1]
      exact taken.inUse member
  · rw [table]
    exact ram_ne_zero (taken.physical r member).1
  · rw [pteOf, root, translate, leafTable]
    simp only [blank, not_has_zero, Bool.false_eq_true, if_false]
  · exact forest.samePte inside (sameRoot j other) fun t named => taken.mem t (forest.taken j inside t named)

/-- Changing other fields of a process as a step of a program. -/
theorem Forest.stepProc {P : Pages env trapSec} {c : ℕ} {α : Type} {rest : Exec (Kernel σ) α}
    {post : α → Kernel σ → Prop} {change : Process → Process} (forest : Forest k own) (ok : P.Ok k)
    (space : ∀ p, SameSpace p (change p)) (next : ∀ k', Builds P c k own k' own →
      (∀ pid va, pteOf k' pid va = pteOf k pid va) →
      k'.procs c = change (k.procs c) → Yields rest k' post) :
    Yields (do modify fun k => k.setProc c change; rest) k post := by
  obtain ⟨builds, ptes⟩ := forest.setProc ok space
  exact Ensures.step (modify_apply _ _) (next _ builds ptes (Kernel.setProc_procs_self ..))

/-- Mapping a page of the process and entering it in the region table. -/
theorem Forest.mapRegion {P : Pages env trapSec} {c va pa perm r n : ℕ} {region : MappedRegion} {α : Type}
    {rest : Exec (Kernel σ) α} {post : α → Kernel σ → Prop} (forest : Forest k own) (ok : P.Ok k)
    (inside : HasSpace k c) (root : (k.procs c).pagetable = r) (aligned : va % PGSIZE = 0) (word : va < WORD)
    (next : ∀ k' own', Builds P c k own k' own' →
      (∀ j, j ≠ c → HasSpace k j → ∀ va', pteOf k' j va' = pteOf k j va') →
      has (pteOf k c va) PTE_V = false →
      (∀ va', pteOf k' c va' = if pageOf va' = pageOf va then PA2PTE pa ||| perm ||| PTE_V else pteOf k c va') →
      k'.procs c = (k.procs c).setRegion n region → Yields rest k' post) :
    Yields (do Model.userVmMap env r va PGSIZE pa perm; modify fun k => k.setProc c fun p =>
      p.setRegion n region; rest)
      k post := by
  rw [← root]
  refine Ensures.bind (forest.mapPage ok inside aligned word pa perm) ?_
  rintro _ k₁ ⟨own₁, builds₁, procs₁, others₁, vacant, ptes₁⟩
  refine builds₁.forest.stepProc builds₁.ok (fun _ => ⟨rfl, rfl, rfl, rfl, rfl⟩) fun k₂ builds₂ ptes₂ proc₂ =>
    ?_
  refine next k₂ own₁ (builds₁.trans builds₂) (fun j other insideJ va' => ?_) vacant (fun va' => ?_) ?_
  · rw [ptes₂, others₁ j other insideJ]
  · rw [ptes₂, ptes₁]
  · rw [proc₂, procs₁]

variable {lay : Layout}

/-- The last part of `alloc_process`: the mappings and the region table. -/
def fixedMaps (env : PageEnv σ) (lay : Layout) (i pagetable trapframe userStack : ℕ) : Exec (Kernel σ) ℕ := do
  userVmMap env pagetable (USER_STACK_TOP - PGSIZE) PGSIZE userStack (protToType true true false true)
  modify fun k => k.setProc i fun p => p.setRegion 0 ⟨USER_STACK_TOP - PGSIZE, 1, .STACK_SEGMENT⟩
  userVmMap env pagetable trapframe PGSIZE trapframe (protToType true true false false)
  modify fun k => k.setProc i fun p => p.setRegion 1 ⟨trapframe, 1, .CONTEXT_SEGMENT⟩
  userVmMap env pagetable lay.trapSecStart PGSIZE lay.trapSecStart (protToType true false true false)
  modify fun k => k.setProc i fun p => p.setRegion 2 ⟨lay.trapSecStart, 1, .SYSTEM_SEGMENT⟩
  modify fun k => k.setProc i fun p =>
    { p with userHeap := { p.userHeap with
        heapTop := USER_FREE_ADDRESS_START, heapBottom := USER_FREE_ADDRESS_START, freePagesCount := 0 } }
  modify fun k => k.setProc i fun p => p.setRegion 3 ⟨USER_FREE_ADDRESS_START, 0, .HEAP_SEGMENT⟩
  modify fun k => k.setProc i fun p => { p with totalMappedRegion := 4 }
  return i

private theorem plant_maps {P : UserPages env (lay.trapSecStart / PGSIZE)} (forest : Forest k own)
    (ok : P.Ok k) {r tf s : ℕ} (inside : HasSpace k i) (root : (k.procs i).pagetable = r)
    (tfSmall : tf < 2 ^ 44) (small : s < 2 ^ 44) (apart : s ≠ tf) (image : s ≠ lay.trapSecStart / PGSIZE)
    (empty : ∀ va, pteOf k i va = 0) :
    Yields (fixedMaps env lay i r (tf * PGSIZE) (s * PGSIZE)) k fun j k' => j = i ∧
    ∃ own', Builds P.toPages i k own k' own' ∧
        (∀ j, j ≠ i → HasSpace k j → ∀ va, pteOf k' j va = pteOf k j va) ∧
        (has (pteOf k' i STACK_PAGE) PTE_V = true ∧ PTE2PA (pteOf k' i STACK_PAGE) = s * PGSIZE) ∧
        ∀ va, has (pteOf k' i va) PTE_V = true → pageOf va = pageOf STACK_PAGE ∨
        PTE2PA (pteOf k' i va) ≠ s * PGSIZE := by
  rw [fixedMaps]
  refine forest.mapRegion ok inside root (by decide) (by decide) ?_
  rw [show USER_STACK_TOP - PGSIZE = STACK_PAGE from rfl]
  intro k₁ own₁ builds₁ others₁ _ ptes₁ proc₁
  have inside₁ := (builds₁.hasSpace i).mpr inside
  refine builds₁.forest.mapRegion builds₁.ok inside₁ (by rw [proc₁]; exact root) (Nat.mul_mod_left _ _)
    (page_word tfSmall) ?_
  intro k₂ own₂ builds₂ others₂ vacant₂ ptes₂ proc₂
  have inside₂ := (builds₂.hasSpace i).mpr inside₁
  refine builds₂.forest.mapRegion builds₂.ok inside₂ (by rw [proc₂, proc₁]; exact root) lay.aligned
    (trapSec_word lay) ?_
  intro k₃ own₃ builds₃ others₃ vacant₃ ptes₃ proc₃
  refine builds₃.forest.stepProc builds₃.ok (fun _ => ⟨rfl, rfl, rfl, rfl, rfl⟩) fun k₄ builds₄ ptes₄ proc₄ =>
    ?_
  refine builds₄.forest.stepProc builds₄.ok (fun _ => ⟨rfl, rfl, rfl, rfl, rfl⟩) fun k₅ builds₅ ptes₅ proc₅ =>
    ?_
  refine builds₅.forest.stepProc builds₅.ok (fun _ => ⟨rfl, rfl, rfl, rfl, rfl⟩) fun k₆ builds₆ ptes₆ proc₆ =>
    ?_
  have ptes : ∀ j va, pteOf k₆ j va = pteOf k₃ j va := fun j va => by rw [ptes₆, ptes₅, ptes₄]
  have builds := builds₁.trans (builds₂.trans (builds₃.trans (builds₄.trans (builds₅.trans builds₆))))
  have stackFlags : has (PA2PTE (s * PGSIZE) ||| protToType true true false true ||| PTE_V) PTE_V = true :=
    has_valid_or _
  have first : pageOf STACK_PAGE ≠ pageOf (tf * PGSIZE) := by
    intro same
    rw [pteOf_congr same.symm, ptes₁, if_pos rfl, stackFlags] at vacant₂
    cases vacant₂
  have second : pageOf STACK_PAGE ≠ pageOf lay.trapSecStart := by
    intro same
    rw [pteOf_congr same.symm, ptes₂, if_neg first, ptes₁, if_pos rfl, stackFlags] at vacant₃
    cases vacant₃
  have positive : 0 < PGSIZE := by decide
  refine ⟨rfl, own₃, builds, fun j other insideJ va => ?_, ?_, fun va valid => ?_⟩
  · have insideJ₁ := (builds₁.hasSpace j).mpr insideJ
    rw [ptes, others₃ j other ((builds₂.hasSpace j).mpr insideJ₁), others₂ j other insideJ₁,
      others₁ j other insideJ]
  · rw [ptes, ptes₃, if_neg second, ptes₂, if_neg first, ptes₁, if_pos rfl]
    exact ⟨stackFlags, PTE2PA_entry (by decide) small⟩
  · rw [ptes, ptes₃] at valid ⊢
    split_ifs at valid ⊢ with trap
    · refine Or.inr ?_
      rw [← trapSec_page lay, PTE2PA_entry (by decide) (trapSec_small lay)]
      exact fun same => image (Nat.eq_of_mul_eq_mul_right positive same).symm
    · rw [ptes₂] at valid ⊢
      split_ifs at valid ⊢ with frame
      · refine Or.inr ?_
        rw [PTE2PA_entry (by decide) tfSmall]
        exact fun same => apart (Nat.eq_of_mul_eq_mul_right positive same).symm
      · rw [ptes₁] at valid ⊢
        split_ifs at valid ⊢ with stack
        · exact Or.inl stack
        · rw [empty, not_has_zero] at valid
          cases valid

/-- The state of `alloc_process` before the mappings, with the pages that it took. -/
structure Prepared (P : UserPages env (lay.trapSecStart / PGSIZE)) (k : Kernel σ) (i tf r ks s mi : ℕ)
    (k' : Kernel σ) :
    Prop where
  taken : Taken P k i [mi, s, ks, r, tf] k'
  trapframe : (k'.procs i).trapframe = tf * PGSIZE
  pagetable : (k'.procs i).pagetable = r * PGSIZE
  kstack : (k'.procs i).kstack = (ks * PGSIZE + PGSIZE) % WORD
  mappedInfo : (k'.procs i).mappedInfo = mi * PGSIZE
  status : (k'.procs i).status = .FREE
  blank : k'.mem r = fun _ => 0

theorem kstack_word {f : ℕ} (small : f < 2 ^ 44) : (f * PGSIZE + PGSIZE) % WORD = f * PGSIZE + PGSIZE := by
  apply Nat.mod_eq_of_lt
  simp only [PGSIZE, WORD] at *
  omega

/-- The page of the user stack is none of the other pages that were taken. -/
private theorem Prepared.pages {P : UserPages env (lay.trapSecStart / PGSIZE)} {tf r ks s mi : ℕ}
    (prepared : Prepared P k i tf r ks s mi k') (own' : ℕ → Owner) (sole : own' i = soleRoot r) :
    ¬ KernelPage k' own' i s ∧ ∀ f ∈ [mi, s, ks, r, tf], f = s ∨ KernelPage k' own' i f := by
  have positive : 0 < PGSIZE := by decide
  have distinct := prepared.taken.distinct
  have small : ∀ f ∈ [mi, s, ks, r, tf], f < 2 ^ 44 := fun f member => (prepared.taken.physical f member).2.1
  simp only [List.nodup_cons, List.mem_cons, not_or, List.not_mem_nil, or_false, forall_eq_or_imp, forall_eq]
    at distinct small
  obtain ⟨⟨apartMi, _⟩, ⟨apartKs, apartR, apartTf⟩, _⟩ := distinct
  obtain ⟨_, smallS, smallKs, _⟩ := small
  simp only [KernelPage, prepared.trapframe, prepared.kstack, prepared.mappedInfo, sole]
  constructor
  · rintro (same | same | same | named)
    · exact apartTf (Nat.eq_of_mul_eq_mul_right positive same)
    · rw [kstack_word smallS, kstack_word smallKs] at same
      exact apartKs (Nat.eq_of_mul_eq_mul_right positive (Nat.add_right_cancel same))
    · exact apartMi (Nat.eq_of_mul_eq_mul_right positive same).symm
    · obtain ⟨q, named⟩ := Option.ne_none_iff_exists'.mp named
      exact apartR (soleRoot_named named).1
  · intro f member
    simp only [List.mem_cons, List.not_mem_nil, or_false] at member
    rcases member with rfl | rfl | rfl | rfl | rfl
    · exact Or.inr (Or.inr (Or.inr (Or.inl rfl)))
    · exact Or.inl rfl
    · exact Or.inr (Or.inr (Or.inl rfl))
    · refine Or.inr (Or.inr (Or.inr (Or.inr ?_)))
      rw [soleRoot, Function.update_self]
      exact Option.some_ne_none _
    · exact Or.inr (Or.inl rfl)

/-- The first part of `alloc_process`, which takes the pages. -/
theorem allocProcess_prepared {P : UserPages env (lay.trapSecStart / PGSIZE)}
    {post : ℕ → Kernel σ → Prop} (ok : P.Ok k) (next : ∀ i tf r ks s mi k', freeProcess? k.procs = some i →
      Prepared P k i tf r ks s mi k' →
      Yields (fixedMaps env lay i (r * PGSIZE) (tf * PGSIZE) (s * PGSIZE)) k' post) : Yields
      (allocProcess env lay) k post := by
  rw [Model.allocProcess]
  refine Ensures.step (get_apply k) ?_
  cases found : freeProcess? k.procs with
  | none => trivial
  | some i =>
    obtain ⟨-, status⟩ := freeProcess?_some found
    refine Ensures.step (modify_apply _ _) ?_
    refine Ensures.bind (Taken.start ok i).take ?_
    rintro _ _ ⟨tf, pool₁, rfl, rfl, taken₁⟩
    refine Ensures.step (modify_apply _ _) ?_
    refine Ensures.bind (taken₁.setProc _).take ?_
    rintro _ _ ⟨r, pool₂, rfl, rfl, taken₂⟩
    refine Ensures.step (modify_apply _ _) ?_
    refine Ensures.step (modify_apply _ _) ?_
    rw [page_div]
    refine Ensures.bind ((taken₂.setProc _).setPage List.mem_cons_self _).take ?_
    rintro _ _ ⟨ks, pool₃, rfl, rfl, taken₃⟩
    refine Ensures.step (modify_apply _ _) ?_
    refine Ensures.bind (taken₃.setProc _).take ?_
    rintro _ _ ⟨s, pool₄, rfl, rfl, taken₄⟩
    refine Ensures.step (modify_apply _ _) ?_
    refine Ensures.bind (taken₄.setProc _).take ?_
    rintro _ _ ⟨mi, pool₅, rfl, rfl, taken₅⟩
    refine Ensures.step (modify_apply _ _) ?_
    have taken := taken₅.setProc fun p => { p with mappedInfo := mi * PGSIZE, regions := fun _ => zeroRegion }
    generalize state :
      Kernel.setProc _ i (fun p => { p with mappedInfo := mi * PGSIZE, regions := fun _ => zeroRegion }) = k₁
      at taken ⊢
    have prepared : Prepared P k i tf r ks s mi k₁ := by
      refine ⟨taken, ?_, ?_, ?_, ?_, ?_, ?_⟩ <;>
        simp [← state, Kernel.setProc, Kernel.setPage, Kernel.took, Kernel.record, status]
    exact next i tf r ks s mi k₁ found prepared

/-- `alloc_process`. -/
theorem Forest.allocProcess {P : UserPages env (lay.trapSecStart / PGSIZE)} (forest : Forest k own)
    (ok : P.Ok k) :
    Yields (allocProcess env lay) k fun i k' => ∃ s own', Planted P k i s k' own' := by
  refine allocProcess_prepared ok fun i tf r ks s mi k₁ found prepared => ?_
  obtain ⟨bound, -⟩ := freeProcess?_some found
  obtain ⟨forest₁, inside₁, empty, others₁⟩ :=
    prepared.taken.root forest (by simp) bound (by rw [prepared.status]; decide)
    prepared.pagetable prepared.blank
  obtain ⟨loose, pages⟩ := prepared.pages _ (Function.update_self i (soleRoot r) own)
  have member : s ∈ [mi, s, ks, r, tf] := by simp
  have physical := prepared.taken.physical s member
  have small := (prepared.taken.physical tf (by simp)).2.1
  have apart : s ≠ tf := fun same => loose (Or.inl (by rw [prepared.trapframe, same]))
  refine Ensures.mono
    (plant_maps forest₁ prepared.taken.ok inside₁ prepared.pagetable small physical.2.1 apart
      physical.2.2 empty) ?_
  rintro _ k' ⟨rfl, own', builds, others', stack, entries⟩
  obtain ⟨frames, trace, named⟩ := builds.pages
  refine ⟨s, own', builds.ok, builds.forest, found, (builds.hasSpace _).mpr inside₁,
    builds.space.status.trans prepared.status,
    fun j other => (builds.others j other).trans (prepared.taken.others j other), fun j other inside va => ?_,
    ⟨frames ++ [mi, s, ks, r, tf], ?_, List.mem_append_right _ member, fun f inside => ?_⟩,
    builds.loose (prepared.taken.inUse member) loose, stack, entries⟩
  · have inside' : HasSpace k₁ j := by rwa [HasSpace, prepared.taken.others j other]
    rw [others' j other inside', others₁ j other inside]
  · rw [trace, prepared.taken.trace, List.map_append, List.append_assoc]
  · rcases List.mem_append.mp inside with late | early
    · exact Or.inr (Or.inr (Or.inr (Or.inr (named f late))))
    · exact (pages f early).imp_right builds.kernelPage

end

section

variable {P : Pages env trapSec} {k k' : Kernel σ} {own : ℕ → Owner} {pid : ℕ}

theorem Forest.tablePage_iff (forest : Forest k own) (f : ℕ) : TablePage k f ↔ ∃ pid, HasSpace k pid ∧
    own pid f ≠ none := by
  constructor
  · rintro ⟨pid, inside, table⟩
    exact ⟨pid, inside, ((forest.rooted pid inside).isTable_iff f).mp table⟩
  · rintro ⟨pid, inside, named⟩
    exact ⟨pid, inside, ((forest.rooted pid inside).isTable_iff f).mpr named⟩

theorem Forest.record (forest : Forest k own) {e : PageEvent} (log : Logs e) : Forest (k.record e) own := by
  refine forest.same rfl (fun f taken => ?_) fun j inside => ⟨inside, rfl⟩
  rwa [Kernel.record, handed_logs log]

/-- Passing a page that is no table to `pfree`. -/
theorem Forest.gave (forest : Forest k own) {pa : ℕ} (data : ¬ TablePage k (pa / PGSIZE)) (pool : σ) :
    Forest (k.gave pa pool) own := by
  refine ⟨forest.rooted, fun j inside t named => ?_, forest.apart⟩
  refine (List.mem_erase_of_ne ?_).mpr (forest.taken j inside t named)
  rintro rfl
  exact named (forest.unowned inside data)

/-- Loading a segment. -/
theorem Forest.loadSegment {file : HostFile} {ph : ProgHeader} (forest : Forest k own) (ok : P.Ok k)
    (inside : HasSpace k pid) (word : ph.vaddr < WORD) (call : loadSegment env pid file ph k = .ok none k') :
    P.Ok k' ∧ HasSpace k' pid ∧ ∃ own', Forest k' own' := by
  obtain ⟨own₁, segment, rooted⟩ := (forest.site ok inside).loadSegment word call
  obtain ⟨⟨type, self⟩, others⟩ := segment.registered
  refine ⟨segment.site.ok, ?_, Function.update own pid own₁,
    forest.change (fun j other insideJ => ?_) (fun j other insideJ t named => ?_) fun _ => ?_⟩
  · rw [HasSpace, self]
    exact inside
  · rw [rootOf, rootOf, others j other]
    rw [HasSpace, others j other] at insideJ
    exact ⟨insideJ, rfl⟩
  · have taken := forest.taken j insideJ t named
    obtain ⟨free, same⟩ := segment.data t taken (forest.apart j pid insideJ inside other t named)
    exact ⟨free, same, segment.taken t taken⟩
  · rw [segment.root]
    exact ⟨rooted (forest.rooted pid inside), segment.site.taken⟩

theorem Loads.forest {file : HostFile} {segments : List (ProgHeader × ℕ)}
    (loads : Loads env pid file k segments k') (words : ∀ s ∈ segments, s.1.vaddr < WORD)
    (forest : Forest k own) (ok : P.Ok k) (inside : HasSpace k pid) :
    HasSpace k' pid ∧ ∃ own', Forest k' own' := by
  induction loads generalizing own with
  | nil k => exact ⟨inside, own, forest⟩
  | cons call _ ih =>
    obtain ⟨ok₁, inside₁, own₁, forest₁⟩ := forest.loadSegment ok inside (words _ List.mem_cons_self) call
    exact ih (fun s member => words s (List.mem_cons_of_mem _ member)) forest₁ ok₁ inside₁

/-- `load_bincode_from_host_elf`. -/
theorem Forest.load (forest : Forest k own) (ok : P.Ok k) (inside : HasSpace k pid) {file : HostFile}
    (call : loadBincodeFromHostElf env pid file k = .ok () k') : ∃ own', Forest k' own' := by
  rw [loadBincodeFromHostElf] at call
  cases init : elfInit file with
  | error status =>
    rw [init] at call
    cases call
  | ok ehdr =>
    rw [init] at call
    obtain ⟨status, k₁, load, rest⟩ := bind_eq_ok.mp call
    by_cases failed : status ≠ .EL_OK
    · rw [if_pos failed] at rest
      cases rest
    · rw [if_neg failed] at rest
      obtain ⟨-, rfl⟩ := EStateM.Result.ok.inj rest
      rw [not_not.mp failed] at load
      obtain ⟨loads, headers⟩ := elfLoadLoop_ok ehdr.phnum 0 load
      have words := fun s member => loadHeaders_word (headers ▸ List.mem_map_of_mem (a := s) member)
      obtain ⟨_, own₁, forest₁⟩ := loads.forest words forest ok inside
      exact ⟨own₁, forest₁.keepFields fun _ => ⟨rfl, rfl⟩⟩

/-- `sys_user_allocate_page`. -/
theorem Forest.sysUserAllocatePage (forest : Forest k own) (ok : P.Ok k) (inside : HasSpace k k.current) :
    Yields (sysUserAllocatePage env) k fun _ k' => ∃ own', Forest k' own' := by
  rw [Model.sysUserAllocatePage]
  refine Ensures.bind ((forest.site ok inside).alloc (trivialStops env)) ?_
  rintro pa k₁ ⟨_, _, _, _, _, _, _, _, _, mem, _, site₁, keeps⟩
  have root : ∀ j, rootOf k₁ j = rootOf k j := fun j => by rw [rootOf, rootOf, keeps.procs]
  have forest₁ : Forest k₁ own := forest.same mem keeps.taken fun j insideJ =>
    ⟨by rwa [HasSpace, keeps.procs] at insideJ, root j⟩
  have inside₁ : HasSpace k₁ k.current := by rwa [HasSpace, keeps.procs]
  refine Ensures.step (get_apply k₁) ?_
  refine Ensures.step (get_apply k₁) ?_
  rw [keeps.current]
  -- both branches change fields of the caller and then map the page at the address they chose
  have finish : ∀ k₂ va, Builds P k.current k₁ own k₂ own → Yields (do
      Model.userVmMap env ((← get).procs k.current).pagetable va PGSIZE pa (protToType true true false true)
      modify fun k' => Kernel.record k' (.grant k.current va)
      return va) k₂ fun _ k' => ∃ own', Forest k' own' := by
    intro k₂ va builds
    refine Ensures.step (get_apply k₂) ?_
    refine Ensures.bind (builds.forest.userVmMap builds.ok ((builds.hasSpace _).mpr inside₁) va PGSIZE pa _) ?_
    rintro _ k₃ ⟨own', mapped, _⟩
    exact ⟨own', mapped.forest.record trivial⟩
  by_cases some : ((k₁.procs k.current).userHeap.freePagesCount > 0)
  · rw [if_pos some]
    refine forest₁.stepProc site₁.ok (fun _ => ⟨rfl, rfl, rfl, rfl, rfl⟩) fun k₂ builds _ _ => ?_
    have check : ∀ condition : Bool, Yields (assert condition "va < current->user_heap.heap_top") k₂ fun _
      k' => k' = k₂ := by
      rintro (_ | _)
      · trivial
      · exact rfl
    refine Ensures.bind (check _) ?_
    rintro _ k₃ rfl
    exact finish k₃ _ builds
  · rw [if_neg some]
    refine forest₁.stepProc site₁.ok (fun _ => ⟨rfl, rfl, rfl, rfl, rfl⟩) fun k₂ builds _ _ => ?_
    refine builds.forest.stepProc builds.ok (fun _ => ⟨rfl, rfl, rfl, rfl, rfl⟩) fun k₃ builds' _ _ => ?_
    exact finish k₃ _ (builds.trans builds')

/-- One round of `user_vm_unmap` with `free` set, for a page that is no table. -/
theorem Forest.unmapRound (forest : Forest k own) (inside : HasSpace k pid) {n first : ℕ}
    {post : Unit → Kernel σ → Prop} (data : has (pteOf k pid first) PTE_V = true →
      ¬ TablePage k (PTE2PA (pteOf k pid first) / PGSIZE))
    (next : ∀ k', Forest k' own → k'.procs = k.procs →
      (∀ va, has (pteOf k' pid va) PTE_V = true → pteOf k' pid va = pteOf k pid va) →
      Yields (userVmUnmapLoop env (k.procs pid).pagetable true n ((first + PGSIZE) % WORD)) k' post) :
    Yields (userVmUnmapLoop env (k.procs pid).pagetable true (n + 1) first) k post := by
  refine Proofs.unmapRound fun k' round => ?_
  cases round with
  | skipped _ => exact next k forest rfl fun _ _ => rfl
  | @released t pool found valid _ =>
    obtain ⟨forest', ptes, _⟩ := (forest.gave (data valid) pool).setLeaf inside found fun nonzero =>
      absurd rfl nonzero
    refine next _ forest' rfl fun va still => ?_
    rw [ptes] at still ⊢
    split_ifs at still ⊢
    · cases still
    · rfl

private theorem roundDown_next {va : ℕ} (unaligned : va % PGSIZE ≠ 0) :
    va ≤ ROUNDDOWN va PGSIZE + PGSIZE ∧ ROUNDDOWN va PGSIZE + PGSIZE < va + PGSIZE := by
  simp only [ROUNDDOWN, PGSIZE] at *
  omega

/-- `sys_user_free_page`, if no page of the range is a table. -/
theorem Forest.sysUserFreePage (forest : Forest k own) (inside : HasSpace k k.current) {va : ℕ}
    (word : va < WORD) (data : ∀ a, va ≤ a → a < va + PGSIZE → has (pteOf k k.current a) PTE_V = true →
      ¬ TablePage k (PTE2PA (pteOf k k.current a) / PGSIZE)) :
    Yields (sysUserFreePage env va) k fun _ k' => Forest k' own := by
  rw [Model.sysUserFreePage]
  refine Ensures.step (get_apply k) ?_
  refine Ensures.step (get_apply k) ?_
  have start : pteOf k k.current (ROUNDDOWN va PGSIZE) = pteOf k k.current va :=
    pteOf_congr (pageOf_roundDown va)
  have first := data va le_rfl (Nat.lt_add_of_pos_right (by decide))
  rw [← start] at first
  have unmap : Yields (userVmUnmap env (k.procs k.current).pagetable va PGSIZE true) k fun _ k' =>
    Forest k' own := by
    rw [Model.userVmUnmap]
    by_cases beyond : WORD ≤ va + PGSIZE
    · rw [rounds_wrap word beyond]
      exact forest
    by_cases aligned : va % PGSIZE = 0
    · rw [unmap_rounds aligned (Nat.lt_of_not_le beyond)]
      exact forest.unmapRound inside first fun k' forest' _ _ => forest'
    obtain ⟨rounds, next⟩ := rounds_two (Nat.lt_of_not_le beyond) aligned
    rw [rounds]
    refine forest.unmapRound inside first fun k₁ forest₁ procs₁ same => ?_
    have inside₁ : HasSpace k₁ k.current := by rwa [HasSpace, procs₁]
    have second := data _ (roundDown_next aligned).1 (roundDown_next aligned).2
    rw [forest.tablePage_iff] at second
    rw [next, ← procs₁]
    generalize ROUNDDOWN va PGSIZE + PGSIZE = a at second
    refine forest₁.unmapRound inside₁ (fun valid => ?_) fun k₂ forest₂ _ _ => forest₂
    have old := same a valid
    rw [old] at valid ⊢
    rw [forest₁.tablePage_iff]
    simp only [HasSpace, procs₁]
    exact second valid
  refine Ensures.bind unmap ?_
  rintro _ k₁ forest₁
  refine yields_pushFreePage ?_
  have released : Forest (k₁.setProc k.current (releaseInto va)) own := forest₁.keepFields fun _ => ⟨rfl, rfl⟩
  exact released.record trivial

/-- Writing to a page that is no table. -/
theorem Forest.setPage (forest : Forest k own) {f : ℕ} (data : ¬ TablePage k f) (words : ℕ → ℕ) :
    Forest (k.setPage f words) own := by
  refine ⟨fun j inside => (forest.rooted j inside).keep fun t named => ?_, forest.taken, forest.apart⟩
  refine Function.update_of_ne ?_ _ _
  rintro rfl
  exact named (forest.unowned inside data)

/-- `alloc_page`: the page is no table. -/
theorem Forest.take (forest : Forest k own) (ok : P.Ok k) {pa : ℕ} {pool : σ}
    (call : env.alloc k = .ok pa pool) :
    ∃ f, pa = f * PGSIZE ∧ f ≠ 0 ∧ ¬ TablePage k f ∧ Forest (k.took pa pool) own := by
  obtain ⟨f, rfl, ram, _, fresh, _⟩ := P.fresh ok call
  refine ⟨f, rfl, ?_, ?_, forest.same rfl (fun g taken => ?_) fun _ inside => ⟨inside, rfl⟩⟩
  · rintro rfl
    exact ram_ne_zero ram (Nat.zero_mul _)
  · rw [forest.tablePage_iff]
    rintro ⟨j, inside, named⟩
    exact fresh (forest.taken j inside f named)
  · rw [Kernel.took, handed_alloc]
    exact List.mem_cons_of_mem _ taken

/-- A store fault that is handled, if the page of the faulting entry is no table. -/
theorem Forest.storeFault (forest : Forest k own) (ok : P.Ok k) (inside : HasSpace k k.current) {stval : ℕ}
    (data : has (pteOf k k.current stval) PTE_V = true →
      ¬ TablePage k (PTE2PA (pteOf k k.current stval) / PGSIZE))
    (call : handleUserPageFault env CAUSE_STORE_PAGE_FAULT stval k = .ok () k') : Forest k' own := by
  have handled : (0 < stval ∧ stval < MAXVA) ∧ CowEntry k stval := by
    by_contra other
    obtain ⟨e, stops⟩ := storeFault_stops env fun range cow => other ⟨range, cow⟩
    rw [call] at stops
    cases stops
  obtain ⟨range, cow⟩ := handled
  cases found : leafTable k.mem (rootOf k k.current) stval with
  | none =>
    have vacant := cow.1
    rw [leafTable_none found, not_has_zero] at vacant
    cases vacant
  | some t =>
    obtain ⟨alone, stops, _, copies⟩ := @storeFault_cow σ env k stval t range found cow
    by_cases shared : env.refs (PTE2PA (pteOf k k.current stval)) k > 1
    · cases take : env.alloc k with
      | error e pool =>
        rw [stops shared e pool take] at call
        cases call
      | ok pa pool =>
        obtain ⟨f, rfl, nonzero, fresh, forest₁⟩ := forest.take ok take
        have rooted := forest.rooted k.current inside
        have apart : ∀ t, own k.current t ≠ none → t ≠ f := by
          rintro t named rfl
          exact named (forest.unowned inside fresh)
        have table : own k.current t ≠ none := by
          rw [rooted.tables.leafTable_owner rooted.root found]
          exact Option.some_ne_none _
        -- the copied page is no table, so the slot is still the leaf entry of the address
        have copied₂ := forest₁.setPage fresh (k.mem (PTE2PA (pteOf k k.current stval) / PGSIZE))
        have found₂ : leafTable ((k.took (f * PGSIZE) pool).setPage f
            (k.mem (PTE2PA (pteOf k k.current stval) / PGSIZE))).mem
            (rootOf k k.current) stval = some t := by
          rw [← found]
          refine rooted.tables.leafTable_congr (fun t r p owner _ => Function.update_of_ne (apart t ?_) _ _)
            rooted.root stval
          rw [owner]
          exact Option.some_ne_none _
        have valid : has (copied (pteOf k k.current stval) f) PTE_V = true := (copied_access _ _).1.trans cow.1
        have inside₂ : HasSpace
            ((k.took (f * PGSIZE) pool).setPage f
              (k.mem (PTE2PA (pteOf k k.current stval) / PGSIZE))) k.current :=
          inside
        obtain ⟨forest₃, _, _⟩ := copied₂.setLeaf inside₂ found₂ fun _ => valid
        rw [copies shared f pool take nonzero (apart t table), PageEnv.pfree] at call
        split at call
        · rename_i pool' _
          obtain ⟨-, rfl⟩ := EStateM.Result.ok.inj call
          refine forest₃.gave (fun released => data cow.1 ?_) pool'
          rw [forest₃.tablePage_iff] at released
          exact (forest.tablePage_iff _).mpr released
        · cases call
    · rw [alone shared] at call
      obtain ⟨-, rfl⟩ := EStateM.Result.ok.inj call
      exact (forest.setLeaf inside found fun _ => (unshared_access _).1.trans cow.1).1

end

end Pke.Proofs
