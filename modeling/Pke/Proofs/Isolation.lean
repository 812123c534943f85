import Pke.Proofs.ForkFootprint

/-! # Isolation

The pages that the kernel keeps for a process are its trapframe, its kernel stack, its region table
and its page tables. No entry for the user leads to one of them, in every state of a careful run. A
process that does not act keeps its process structure, its translations and its memory, unless
another process stores to a page that both map.
-/

namespace Pke.Proofs

open Pke.Lib Pke.Model

variable {σ : Type} {env : PageEnv σ} {trapSec : ℕ}

/-- The page is the trapframe, the kernel stack or the region table of the process. -/
def Reserved (p : Process) (f : ℕ) : Prop :=
  p.trapframe = f * PGSIZE ∨ p.kstack = f * PGSIZE + PGSIZE ∨ p.mappedInfo = f * PGSIZE

theorem SamePages.reserved {p q : Process} (same : SamePages p q) (f : ℕ) : Reserved q f ↔ Reserved p f := by
  obtain ⟨_, trapframe, kstack, mappedInfo⟩ := same
  rw [Reserved, Reserved, trapframe, kstack, mappedInfo]

theorem SameSpace.pages {p q : Process} (same : SameSpace p q) : SamePages p q :=
  ⟨same.pagetable, same.trapframe, same.kstack, same.mappedInfo⟩

/-- The kernel's own pages of all processes are in use, and the user can access none of them. -/
structure Walled (trapSec : ℕ) (k : Kernel σ) (own : ℕ → Owner) : Prop where
  forest : Forest k own
  lawful : ∀ pid, HasSpace k pid → ∀ va, has (pteOf k pid va) PTE_V = true → Lawful va (pteOf k pid va)
  held : ∀ pid, HasSpace k pid → ∀ f, Reserved (k.procs pid) f → f ∈ handed k.trace
  walls : ∀ f ∈ userFrames k, f ≠ trapSec ∧ ∀ pid, HasSpace k pid → ¬ Reserved (k.procs pid) f

/-- A page in use that is not one of the kernel's own. -/
structure Lendable (trapSec : ℕ) (k : Kernel σ) (f : ℕ) : Prop where
  image : f ≠ trapSec
  taken : f ∈ handed k.trace
  data : ¬ TablePage k f
  apart : ∀ pid, HasSpace k pid → ¬ Reserved (k.procs pid) f

/-- The process keeps its process structure, up to its link in the ready queue, its translations and
its memory. -/
structure Unharmed (q : ℕ) (k k' : Kernel σ) : Prop where
  proc : ∃ next, k'.procs q = { k.procs q with queueNext := next }
  ptes : ∀ va, pteOf k' q va = pteOf k q va
  memory : ∀ va, UserLeaf (pteOf k q va) → k'.mem (frameOf (pteOf k q va)) = k.mem (frameOf (pteOf k q va))

namespace Unharmed

variable {q : ℕ} {k k' k'' : Kernel σ}

theorem refl (q : ℕ) (k : Kernel σ) : Unharmed q k k :=
  ⟨⟨(k.procs q).queueNext, rfl⟩, fun _ => rfl, fun _ _ => rfl⟩

theorem trans (first : Unharmed q k k') (second : Unharmed q k' k'') : Unharmed q k k'' := by
  obtain ⟨next, same⟩ := first.proc
  obtain ⟨next', same'⟩ := second.proc
  refine ⟨⟨next', by rw [same', same]⟩, fun va => (second.ptes va).trans (first.ptes va), fun va leaf => ?_⟩
  have later := second.memory va
  rw [first.ptes va] at later
  exact (later leaf).trans (first.memory va leaf)

theorem hasSpace (unharmed : Unharmed q k k') : HasSpace k' q ↔ HasSpace k q := by
  obtain ⟨next, same⟩ := unharmed.proc
  rw [HasSpace, HasSpace, same]

theorem live (unharmed : Unharmed q k k') : Live k' q ↔ Live k q := by
  obtain ⟨next, same⟩ := unharmed.proc
  rw [Live, Live, unharmed.hasSpace, same]

end Unharmed

section

variable {P : UserPages env trapSec} {who lent : Set ℕ} {k₀ k k' : Kernel σ} {own₀ own : ℕ → Owner} {q : ℕ}

/-- Page tables and translations after what follows a call. -/
private theorem Settles.spaces (settles : Settles who lent k k') (j : ℕ) (inside : HasSpace k' j) :
    HasSpace k j ∧ SamePages (k.procs j) (k'.procs j) ∧ ∀ va, pteOf k' j va = pteOf k j va := by
  have pages : HasSpace k j ∧ SamePages (k.procs j) (k'.procs j) := by
    by_cases member : j ∈ who
    · exact settles.self j member inside
    · obtain ⟨next, same⟩ := settles.others j member
      rw [HasSpace, same] at inside
      rw [same]
      exact ⟨inside, rfl, rfl, rfl, rfl⟩
  refine ⟨pages.1, pages.2, fun va => ?_⟩
  rw [pteOf, pteOf, rootOf, rootOf, settles.mem, pages.2.1]

theorem Settles.unharmed (settles : Settles who lent k k') (other : q ∉ who) : Unharmed q k k' := by
  obtain ⟨next, same⟩ := settles.others q other
  refine ⟨⟨next, same⟩, fun va => ?_, fun va _ => by rw [settles.mem]⟩
  rw [pteOf, pteOf, rootOf, rootOf, settles.mem, same]

/-- A process that the call does not work on. -/
theorem Enclosed.unharmed (enclosed : Enclosed P who lent k₀ own₀ k own) (forest : Forest k₀ own₀)
    (lendable : ∀ f ∈ userFrames k₀, Lendable trapSec k₀ f) (inside : HasSpace k₀ q) (other : q ∉ who) :
    Unharmed q k₀ k := by
  refine ⟨⟨(k₀.procs q).queueNext, enclosed.procs q other⟩, enclosed.ptes forest other inside,
    fun va leaf => ?_⟩
  have page := lendable _ ⟨q, va, inside, leaf, rfl⟩
  refine (enclosed.pages _ page.taken fun c member => ?_).1
  exact forest.unowned ((enclosed.hasSpace c).mp (enclosed.inside c member)) page.data

private theorem Enclosed.samePages (enclosed : Enclosed P who lent k₀ own₀ k own)
    (j : ℕ) : SamePages (k₀.procs j) (k.procs j) := by
  by_cases member : j ∈ who
  · exact (enclosed.spaces j member).pages
  · rw [enclosed.procs j member]
    exact ⟨rfl, rfl, rfl, rfl⟩

/-- A lendable page stays one during a call. -/
theorem Enclosed.lendable (enclosed : Enclosed P who lent k₀ own₀ k own) (forest : Forest k₀ own₀) {f : ℕ}
    (page : Lendable trapSec k₀ f) : Lendable trapSec k f := by
  have before : ∀ j, HasSpace k j → HasSpace k₀ j := fun j inside => (enclosed.hasSpace j).mp inside
  refine ⟨page.image, enclosed.taken f page.taken, ?_, fun pid inside kept => ?_⟩
  · rw [enclosed.forest.tablePage_iff]
    rintro ⟨j, inside, named⟩
    apply named
    by_cases member : j ∈ who
    · refine (enclosed.pages f page.taken fun c member => ?_).2 j member
      exact forest.unowned ((enclosed.hasSpace c).mp (enclosed.inside c member)) page.data
    · rw [enclosed.owners j member]
      exact forest.unowned (before j inside) page.data
  · exact page.apart pid (before pid inside) (((enclosed.samePages pid).reserved f).mp kept)

/-- A call that lends only lendable pages keeps the walls. -/
theorem Walled.enclosed (walled : Walled trapSec k₀ own₀) (lendable : ∀ f ∈ lent, Lendable trapSec k₀ f)
    (enclosed : Enclosed P who lent k₀ own₀ k own) : Walled trapSec k own := by
  have reserved : ∀ j f, Reserved (k.procs j) f ↔ Reserved (k₀.procs j) f :=
    fun j f => (enclosed.samePages j).reserved f
  have before : ∀ j, HasSpace k j → HasSpace k₀ j := fun j inside => (enclosed.hasSpace j).mp inside
  have entries : ∀ j, HasSpace k j → ∀ va, has (pteOf k j va) PTE_V = true →
      Granted trapSec lent k₀ va (pteOf k j va) ∨ pteOf k j va = pteOf k₀ j va := by
    intro j inside va valid
    by_cases member : j ∈ who
    · exact Or.inl (enclosed.entries j member va valid)
    · exact Or.inr (enclosed.ptes walled.forest member (before j inside) va)
  refine ⟨enclosed.forest, fun j inside va valid => ?_, fun j inside f kept => ?_, ?_⟩
  · rcases entries j inside va valid with granted | same
    · exact granted.lawful
    · rw [same] at valid ⊢
      exact walled.lawful j (before j inside) va valid
  · exact enclosed.taken f (walled.held j (before j inside) f ((reserved j f).mp kept))
  · rintro f ⟨j, va, inside, leaf, rfl⟩
    suffices walls : frameOf (pteOf k j va) ≠ trapSec ∧ ∀ pid, HasSpace k₀ pid →
      ¬ Reserved (k₀.procs pid) (frameOf (pteOf k j va)) from
      ⟨walls.1, fun pid insideP kept => walls.2 pid (before pid insideP) ((reserved pid _).mp kept)⟩
    rcases entries j inside va leaf.1 with granted | same
    · rcases granted.frame leaf.2 with member | ⟨fresh, image⟩
      · exact ⟨(lendable _ member).image, (lendable _ member).apart⟩
      · exact ⟨image, fun pid insideP kept => fresh (walled.held pid insideP _ kept)⟩
    · rw [same] at leaf ⊢
      exact walled.walls _ ⟨j, va, before j inside, leaf, rfl⟩

/-- What follows a call keeps the walls. -/
theorem Walled.settled (walled : Walled trapSec k own) (lendable : ∀ f ∈ lent, Lendable trapSec k f)
    (settles : Settles who lent k k') : Walled trapSec k' own := by
  have before : ∀ j, HasSpace k' j → HasSpace k j := fun j inside => (settles.spaces j inside).1
  have reserved : ∀ j, HasSpace k' j → ∀ f, Reserved (k'.procs j) f ↔ Reserved (k.procs j) f := fun j inside =>
    (settles.spaces j inside).2.1.reserved
  have ptes : ∀ j, HasSpace k' j → ∀ va, pteOf k' j va = pteOf k j va :=
    fun j inside => (settles.spaces j inside).2.2
  refine ⟨⟨fun j inside => ?_, fun j inside t named => ?_, fun i j insideI insideJ => ?_⟩,
    fun j inside va => ?_, fun j inside f kept => ?_, ?_⟩
  · obtain ⟨old, same, _⟩ := settles.spaces j inside
    rw [settles.mem, rootOf, same.1]
    exact walled.forest.rooted j old
  · refine settles.taken t (walled.forest.taken j (before j inside) t named) fun member => named ?_
    exact walled.forest.unowned (before j inside) (lendable t member).data
  · exact walled.forest.apart i j (before i insideI) (before j insideJ)
  · rw [ptes j inside]
    exact walled.lawful j (before j inside) va
  · have old := (reserved j inside f).mp kept
    exact settles.taken f (walled.held j (before j inside) f old) fun member =>
      (lendable f member).apart j (before j inside) old
  · rintro f ⟨j, va, inside, leaf, rfl⟩
    rw [ptes j inside] at leaf ⊢
    obtain ⟨image, apart⟩ := walled.walls _ ⟨j, va, before j inside, leaf, rfl⟩
    exact ⟨image, fun pid insideP kept => apart pid (before pid insideP) ((reserved pid insideP _).mp kept)⟩

/-- The user can access lendable pages only. -/
theorem Walled.lendable {own : Owner} {tables : ℕ → Owner} (walled : Walled trapSec k tables)
    (shape : Shape trapSec k own) (kept : ∀ f, Mapped k f → f ∈ handed k.trace ∨ f = trapSec) :
    ∀ f ∈ userFrames k, Lendable trapSec k f := by
  rintro _ ⟨pid, va, inside, leaf, rfl⟩
  obtain ⟨image, apart⟩ := walled.walls _ ⟨pid, va, inside, leaf, rfl⟩
  refine ⟨image, (kept _ ⟨pid, inside, va, leaf.1, rfl⟩).resolve_right image, fun table => ?_, apart⟩
  exact shape.tablePage table (shape.leaves pid inside va leaf.1).1

end

section

variable {lay : Layout} {P : UserPages env (lay.trapSecStart / PGSIZE)} {k k₁ k₂ k' : Kernel σ}
  {tables tables₁ tables' : ℕ → Owner}
  {i s q : ℕ}

/-- The reserved pages of a new process were taken for it. -/
private theorem Prepared.reserved {tf r ks mi : ℕ} (prepared : Prepared P k i tf r ks s mi k') {f : ℕ}
    (kept : Reserved (k'.procs i) f) : f ∈ [mi, s, ks, r, tf] ∧ f ≠ s := by
  have positive : 0 < PGSIZE := by decide
  have distinct := prepared.taken.distinct
  have small := (prepared.taken.physical ks (by simp)).2.1
  simp only [List.nodup_cons, List.mem_cons, not_or, List.not_mem_nil, or_false] at distinct
  obtain ⟨⟨apartMi, _⟩, ⟨apartKs, _, apartTf⟩, _⟩ := distinct
  rw [Reserved, prepared.trapframe, prepared.kstack, prepared.mappedInfo, kstack_word small] at kept
  rcases kept with same | same | same
  · obtain rfl := Nat.eq_of_mul_eq_mul_right positive same
    exact ⟨by simp, Ne.symm apartTf⟩
  · obtain rfl := Nat.eq_of_mul_eq_mul_right positive (Nat.add_right_cancel same)
    exact ⟨by simp, Ne.symm apartKs⟩
  · obtain rfl := Nat.eq_of_mul_eq_mul_right positive same
    exact ⟨by simp, apartMi⟩

/-- The walls stand when the pages of a new process have been taken, and the page for its stack may
be lent. -/
private theorem Walled.prepared (walled : Walled (lay.trapSecStart / PGSIZE) k tables)
    (born : Born P k tables i s k₁ tables₁ k' tables') (lendable : ∀ f ∈ userFrames k,
      Lendable (lay.trapSecStart / PGSIZE) k f) :
    Walled (lay.trapSecStart / PGSIZE) k₁ tables₁ ∧ Lendable (lay.trapSecStart / PGSIZE) k₁ s := by
  obtain ⟨tf, r, ks, mi, prepared, rfl⟩ := born.pages
  have taken := prepared.taken
  have stack : s ∈ [mi, s, ks, r, tf] := by simp
  have more : ∀ f ∈ handed k.trace, f ∈ handed k₁.trace := fun f inside => by
    rw [taken.trace, handed_append]
    exact List.mem_append_right _ inside
  have old : ∀ j, j ≠ i → HasSpace k₁ j → HasSpace k j := fun j other inside => by
    rwa [HasSpace, taken.others j other] at inside
  have apart : ∀ f ∈ handed k.trace, ¬ Reserved (k₁.procs i) f := fun f inside kept =>
    taken.fresh f (prepared.reserved kept).1 inside
  refine ⟨⟨born.forest, fun j inside va valid => ?_, fun j inside f kept => ?_, ?_⟩,
    (taken.physical s stack).2.2, taken.inUse stack, ?_, fun j inside kept => ?_⟩
  · by_cases here : j = i
    · rw [here, born.empty, not_has_zero] at valid
      cases valid
    · rw [born.ptes j here (old j here inside)] at valid ⊢
      exact walled.lawful j (old j here inside) va valid
  · by_cases here : j = i
    · subst here
      exact taken.inUse (prepared.reserved kept).1
    · rw [taken.others j here] at kept
      exact more f (walled.held j (old j here inside) f kept)
  · rintro f ⟨j, va, inside, leaf, rfl⟩
    by_cases here : j = i
    · rw [here, born.empty] at leaf
      exact absurd leaf.1 (by decide)
    · rw [born.ptes j here (old j here inside)] at leaf ⊢
      have page := lendable _ ⟨j, va, old j here inside, leaf, rfl⟩
      refine ⟨page.image, fun pid insideP kept => ?_⟩
      by_cases new : pid = i
      · subst new
        exact apart _ page.taken kept
      · rw [taken.others pid new] at kept
        exact page.apart pid (old pid new insideP) kept
  · rw [born.forest.tablePage_iff]
    rintro ⟨j, inside, named⟩
    by_cases here : j = i
    · subst here
      rw [Function.update_self] at named
      obtain ⟨q, named⟩ := Option.ne_none_iff_exists'.mp named
      have distinct := taken.distinct
      simp only [List.nodup_cons, List.mem_cons, not_or, List.not_mem_nil, or_false] at distinct
      exact distinct.2.1.2.1 (soleRoot_named named).1
    · rw [Function.update_of_ne here] at named
      exact taken.fresh s stack (walled.forest.taken j (old j here inside) s named)
  · by_cases here : j = i
    · subst here
      exact (prepared.reserved kept).2 rfl
    · rw [taken.others j here] at kept
      exact taken.fresh s stack (walled.held j (old j here inside) s kept)

/-- Creating a process keeps the walls. -/
theorem Walled.born (walled : Walled (lay.trapSecStart / PGSIZE) k tables)
    (born : Born P k tables i s k₁ tables₁ k' tables') (lendable : ∀ f ∈ userFrames k,
      Lendable (lay.trapSecStart / PGSIZE) k f) : Walled (lay.trapSecStart / PGSIZE) k' tables' := by
  obtain ⟨walled₁, page⟩ := walled.prepared born lendable
  refine walled₁.enclosed ?_ born.enclosed
  rintro _ rfl
  exact page

/-- Creating a process leaves the others alone. -/
theorem Born.unharmed (born : Born P k tables i s k₁ tables₁ k' tables')
    (lendable : ∀ f ∈ userFrames k, Lendable (lay.trapSecStart / PGSIZE) k f) (inside : HasSpace k q)
    (other : q ≠ i) :
    Unharmed q k k' := by
  obtain ⟨tf, r, ks, mi, prepared, rfl⟩ := born.pages
  have inside₁ : HasSpace k₁ q := by rwa [HasSpace, prepared.taken.others q other]
  have ptes := fun va => (born.enclosed.ptes born.forest other inside₁ va).trans (born.ptes q other inside va)
  have same := (born.enclosed.procs q other).trans (prepared.taken.others q other)
  refine ⟨⟨(k.procs q).queueNext, same⟩, ptes, fun va leaf => ?_⟩
  have page := lendable _ ⟨q, va, inside, leaf, rfl⟩
  have inUse : frameOf (pteOf k q va) ∈ handed k₁.trace := by
    rw [prepared.taken.trace, handed_append]
    exact List.mem_append_right _ page.taken
  refine Eq.trans (born.enclosed.pages _ inUse ?_).1 (prepared.taken.mem _ page.taken)
  rintro _ rfl
  rw [Function.update_self]
  by_contra named
  obtain ⟨owner, named⟩ := Option.ne_none_iff_exists'.mp named
  refine prepared.taken.fresh r (by simp) ?_
  rw [← (soleRoot_named named).1]
  exact page.taken

end

/-- The states differ in the trapframe of a process and in `tp`. -/
structure Framed (c : ℕ) (k k' : Kernel σ) : Prop where
  mem : k'.mem = k.mem
  pool : k'.pool = k.pool
  trace : k'.trace = k.trace
  current : k'.current = k.current
  procs : ∃ change : Trapframe → Trapframe,
    k'.procs = (k.setProc c fun p => { p with frame := change p.frame }).procs

namespace Framed

variable {c : ℕ} {k k' : Kernel σ}

theorem saved (framed : Framed c k k') : Saved k k' := by
  obtain ⟨mem, pool, trace, _, change, procs⟩ := framed
  refine ⟨mem, pool, trace, fun i => ?_⟩
  rw [procs]
  by_cases here : i = c
  · subst here
    exact ⟨change (k.procs i).frame, Kernel.setProc_procs_self ..⟩
  · rw [Kernel.setProc_procs_of_ne _ _ _ here]
    exact ⟨(k.procs i).frame, rfl⟩

theorem enclosed {P : UserPages env trapSec} {who lent : Set ℕ} {k₀ : Kernel σ} {own₀ own : ℕ → Owner}
    (framed : Framed c k k') (enclosed : Enclosed P who lent k₀ own₀ k own) (member : c ∈ who)
    (ok : P.Ok k') : Enclosed P who lent k₀ own₀ k' own := by
  obtain ⟨mem, _, trace, current, change, procs⟩ := framed
  have changed := @Enclosed.setProc _ _ _ _ _ _ _ _ _ _ _ enclosed member
    (fun p => { p with frame := change p.frame }) fun _ => ⟨rfl, rfl, rfl, rfl, rfl⟩
  exact changed.same ok mem procs current fun f taken => by rwa [trace]

theorem settles {who lent : Set ℕ} (framed : Framed c k k') (member : c ∈ who) : Settles who lent k k' := by
  obtain ⟨mem, _, trace, _, change, procs⟩ := framed
  have changed := @Settles.setProc σ who lent k c member (fun p => { p with frame := change p.frame })
    ⟨rfl, rfl, rfl, rfl⟩ fun zombie => zombie
  refine ⟨mem, fun f taken _ => by rwa [trace], fun j other => ?_, fun j own inside => ?_⟩
  · rw [procs]
    exact changed.others j other
  · rw [HasSpace, procs] at inside
    rw [procs]
    exact changed.self j own inside

end Framed

/-- A trap that returns: the registers of the running process are saved, the cause is served, and
the result is stored. -/
private theorem trap_steps {lay : Layout} {k k' : Kernel σ} {regs : Regs} {sepc : ℕ} {cause : Cause}
    (call : smodeTrapHandler env lay cause (k.entered regs sepc) = .ok () k') :
    ∃ k₁ k₂, Framed k.current k k₁ ∧ k₁.tp = regs .tp ∧ Served env lay regs cause k₁ k₂ ∧
    Framed k.current k₂ k' := by
  have entry : Framed k.current k (k.entered regs sepc) :=
    ⟨rfl, rfl, rfl, rfl, fun frame =>
      { frame with regs := Function.update regs .t6 (k.procs k.current).trapframe, epc := sepc }, rfl⟩
  have same : ∀ k : Kernel σ, ∀ c, Framed c k k := fun k c => ⟨rfl, rfl, rfl, rfl, id, by simp [Kernel.setProc]⟩
  cases cause with
  | ecall =>
    rw [smodeTrapHandler, handleSyscall, bind_of_ok (get_apply _), bind_of_ok (modify_apply _ _),
      bind_of_ok (get_apply _)] at call
    have inner : Framed k.current k ((k.entered regs sepc).setFrame fun frame =>
      { frame with epc := (frame.epc + 4) % WORD }) := by
      refine ⟨rfl, rfl, rfl, rfl, fun frame => { frame with
        regs := Function.update regs .t6 (k.procs k.current).trapframe, epc := (sepc + 4) % WORD }, ?_⟩
      simp only [Kernel.entered, Kernel.setFrame, Kernel.setProc, Function.update_self, Function.update_idem]
    have saved : (((k.entered regs sepc).setFrame fun frame =>
      { frame with epc := (frame.epc + 4) % WORD }).procs
        (k.entered regs sepc).current).frame.regs = Function.update regs .t6 (k.procs k.current).trapframe := by
      simp [Kernel.setFrame, Kernel.entered, Kernel.setProc]
    have number : Function.update regs .t6 (k.procs k.current).trapframe .a0 = regs .a0 := rfl
    have argument : Function.update regs .t6 (k.procs k.current).trapframe .a1 = regs .a1 := rfl
    simp only [saved, number, argument] at call
    obtain ⟨result, k₂, served, rest⟩ := bind_eq_ok.mp call
    obtain ⟨-, rfl⟩ := EStateM.Result.ok.inj rest
    exact ⟨_, k₂, inner, rfl, doSyscall_served served, ⟨rfl, rfl, rfl, rfl,
      fun frame => { frame with regs := Function.update frame.regs .a0 result }, rfl⟩⟩
  | timer => cases call
  | storePageFault stval => exact ⟨_, k', entry, rfl, .fault call, same k' _⟩
  | loadPageFault stval =>
    rw [smodeTrapHandler, handleUserPageFault, if_neg (by decide)] at call
    obtain ⟨-, rfl⟩ := EStateM.Result.ok.inj call
    exact ⟨_, _, entry, rfl, .nothing, same _ _⟩
  | other => cases call

theorem Queued.settles {who lent : Set ℕ} {proc : ℕ} {k k' : Kernel σ} (queued : Queued proc k k')
    (member : proc ∈ who) (inside : HasSpace k proc) : Settles who lent k k' := by
  refine ⟨queued.mem, fun f taken _ => by rwa [queued.trace], fun j other => ?_, fun j own insideJ => ?_⟩
  · obtain ⟨next, same | ⟨rfl, _⟩⟩ := queued.procs j
    · exact ⟨next, same⟩
    · exact absurd member other
  · obtain ⟨next, same | ⟨rfl, same⟩⟩ := queued.procs j
    · rw [HasSpace, same] at insideJ
      rw [same]
      exact ⟨insideJ, rfl, rfl, rfl, rfl⟩
    · rw [same]
      exact ⟨inside, rfl, rfl, rfl, rfl⟩

theorem ForkEnded.settles {lay : Layout} {parent child : ℕ} {lent : Set ℕ} {k k' : Kernel σ}
    (ended : ForkEnded lay parent child k k') (inside : HasSpace k child) :
    Settles {parent, child} lent k k' := by
  refine ⟨ended.mem, fun f taken _ => by rwa [ended.trace],
    fun j other => ended.others j fun here => other (Or.inr here), fun j _ insideJ => ?_⟩
  by_cases here : j = child
  · obtain ⟨next, same⟩ := ended.child
    rw [here, same]
    exact ⟨inside, rfl, rfl, rfl, rfl⟩
  · obtain ⟨next, same⟩ := ended.others j here
    rw [HasSpace, same] at insideJ
    rw [same]
    exact ⟨insideJ, rfl, rfl, rfl, rfl⟩

/-- The process that a step is taken for. -/
def actor (k : Kernel σ) : Op → Option ℕ
  | .allocProcess => none
  | .load pid _ => some pid
  | .ready pid => some pid
  | .switchTo pid => some pid
  | .trap _ _ _ => some k.current
  | .store _ _ _ => some k.current

/-- The running process stores to a page that `q` maps for the user. -/
def WritesTo (k : Kernel σ) (q : ℕ) : Op → Prop
  | .store va _ _ => ∃ va', UserLeaf (pteOf k q va') ∧ frameOf (pteOf k q va') = frameOf (pteOf k k.current va)
  | _ => False

section

variable {lay : Layout} {P : UserPages env (lay.trapSecStart / PGSIZE)} {k k' : Kernel σ} {own : Owner}
  {tables : ℕ → Owner}

/-- A call starts with entries that lead to pages of the user. -/
private theorem Walled.start (walled : Walled (lay.trapSecStart / PGSIZE) k tables) (ok : P.Ok k) {who : Set ℕ}
    (inside : ∀ c ∈ who, HasSpace k c) : Enclosed P who (userFrames k) k tables k tables :=
  .refl ok walled.forest inside fun c member va valid =>
    ⟨walled.lawful c (inside c member) va valid,
      fun user => Or.inl ⟨c, va, inside c member, ⟨valid, user⟩, rfl⟩⟩

/-- The process that `alloc_process` picks is not live. -/
private theorem freeProcess?_other {q i : ℕ} (live : Live k q)
    (found : freeProcess? k.procs = some i) : q ≠ i := by
  rintro rfl
  exact live.2 (freeProcess?_some found).2

/-- `do_fork` keeps the walls, and works on parent and child only. -/
private theorem Walled.doFork (exact : ∀ trace, ∀ f ∈ P.Kept trace, f ∈ handed trace)
    (walled : Walled (lay.trapSecStart / PGSIZE) k tables)
    (good : Good P.toSupply k own) {parent child : ℕ} (live : Live k parent)
    (call : doFork env lay parent k = .ok child k') :
    (∃ tables', Walled (lay.trapSecStart / PGSIZE) k' tables') ∧ ∀ q, Live k q → q ≠ parent →
    Unharmed q k k' := by
  obtain ⟨k₁, k₂, spawn, loop, ended⟩ := doFork_ok call
  have lendable := walled.lendable good.space.toShape fun f mapped =>
    (good.space.kept f mapped).imp_left (exact _ f)
  obtain ⟨s, _, _, tables₁, born⟩ := (walled.forest.born good.space.ok).of_ok spawn
  obtain ⟨own₁, spawned⟩ := good.space.allocProcess.of_ok spawn
  have good₁ := spawned.good good
  have walled₁ := walled.born born lendable
  have lendable₁ := walled₁.lendable good₁.space.toShape fun f mapped =>
    (good₁.space.kept f mapped).imp_left (exact _ f)
  have apart := freeProcess?_other live born.found
  have unharmed : ∀ q, Live k q → Unharmed q k k₁ := fun q liveQ =>
    born.unharmed lendable liveQ.1 (freeProcess?_other liveQ born.found)
  have insideP := (unharmed parent live).hasSpace.mpr live.1
  have inside : ∀ c ∈ ({parent, child} : Set ℕ), HasSpace k₁ c := by
    rintro c (rfl | rfl)
    · exact insideP
    · exact spawned.inside
  have copying : Sharing P parent child k₁ tables₁ k₁ tables₁ :=
    ⟨walled₁.start good₁.space.ok inside, rfl, fun _ => ⟨.refl _, rfl⟩⟩
  obtain ⟨tables₂, copying₂⟩ := (copying.rounds _ fun i below _ _ copying =>
    copying.region apart (good₁.procs parent insideP)
    (walled₁.lawful parent insideP) (fun va valid => (good₁.space.leaves parent insideP va valid).2)
    below).of_ok loop
  have settles : Settles {parent, child} (userFrames k₁) k₂ k' :=
    ended.settles (copying₂.inside child (Or.inr rfl))
  have walled₂ := walled₁.enclosed lendable₁ copying₂.toEnclosed
  refine ⟨⟨tables₂, walled₂.settled (fun f member =>
    copying₂.lendable walled₁.forest (lendable₁ f member)) settles⟩,
    fun q liveQ other => ?_⟩
  have away : q ∉ ({parent, child} : Set ℕ) := by
    rintro (rfl | rfl)
    · exact other rfl
    · exact freeProcess?_other liveQ born.found rfl
  have first := unharmed q liveQ
  exact first.trans ((copying₂.unharmed walled₁.forest lendable₁ (first.hasSpace.mpr liveQ.1) away).trans
    (settles.unharmed away))

/-- What is served during a trap keeps the walls, and works on the running process and a child of it. -/
private theorem Walled.served (exact : ∀ trace, ∀ f ∈ P.Kept trace, f ∈ handed trace)
    (walled : Walled (lay.trapSecStart / PGSIZE) k tables) (good : Good P.toSupply k own)
    (live : Live k k.current) {regs : Regs} {cause : Cause} {sepc : ℕ} (safe : Safe k (.trap regs sepc cause))
    (served : Served env lay regs cause k k') :
    (∃ tables', Walled (lay.trapSecStart / PGSIZE) k' tables') ∧ ∀ q, Live k q → q ≠ k.current →
    Unharmed q k k' := by
  have lendable := walled.lendable good.space.toShape fun f mapped =>
    (good.space.kept f mapped).imp_left (exact _ f)
  have member : k.current ∈ ({k.current} : Set ℕ) := rfl
  have start : Enclosed P {k.current} (userFrames k) k tables k tables := by
    refine walled.start good.space.ok ?_
    rintro _ rfl
    exact live.1
  have conclude : ∀ k₁ tables₁, Enclosed P {k.current} (userFrames k) k tables k₁ tables₁ →
      Settles {k.current} (userFrames k) k₁ k' → (∃ tables', Walled (lay.trapSecStart / PGSIZE) k' tables') ∧
      ∀ q, Live k q → q ≠ k.current → Unharmed q k k' := fun k₁ tables₁ enclosed settles =>
    ⟨⟨tables₁, (walled.enclosed lendable enclosed).settled
      (fun f member => enclosed.lendable walled.forest (lendable f member)) settles⟩,
      fun q liveQ other => (enclosed.unharmed walled.forest lendable liveQ.1 other).trans
        (settles.unharmed other)⟩
  have ok := good.procs k.current live.1
  have page : ∀ va, UserLeaf (pteOf k k.current va) → frameOf (pteOf k k.current va) ∈ userFrames k :=
    fun va leaf =>
    ⟨k.current, va, live.1, leaf, rfl⟩
  have frame : ∀ va, has (pteOf k k.current va) PTE_V = true →
      PTE2PA (pteOf k k.current va) / PGSIZE = frameOf (pteOf k k.current va) :=
    fun va valid => PTE2PA_page (good.space.leaves _ live.1 va valid).2
  cases served with
  | allocatePage _ call =>
    obtain ⟨tables₁, enclosed⟩ := (start.sysUserAllocatePage member ok).of_ok call
    exact conclude k' tables₁ enclosed (.refl k')
  | freePage number call =>
    have free := safe number
    have low := ok.heap_below free.high
    obtain ⟨k₁, enclosed, settles⟩ := (start.sysUserFreePage member ok free fun valid => by
      rw [frame _ valid]
      refine page _ ⟨valid, (walled.lawful _ live.1 _ valid).resolve_right fun above => ?_⟩
      simp only [pageOf, STACK_PAGE, USER_STACK_TOP, PGSIZE] at *
      omega).of_ok call
    exact conclude k₁ tables enclosed settles
  | fork _ call => exact walled.doFork exact good live call
  | exit _ => exact conclude k tables start (.setProc member ⟨rfl, rfl, rfl, rfl⟩ fun _ => rfl)
  | fault call =>
    obtain ⟨k₁, enclosed, settles⟩ := start.storeFault member (fun cow => by
      have user : has (pteOf k k.current _) PTE_U = true :=
        (walled.lawful _ live.1 _ cow.1).resolve_right fun above => by
        rw [cow.2] at above
        exact absurd above.2 (by decide)
      rw [frame _ cow.1]
      exact ⟨page _ ⟨cow.1, user⟩, user, page _ ⟨cow.1, user⟩⟩) call
    exact conclude k₁ tables enclosed settles
  | nothing => exact conclude k tables start (.refl k)

/-- A step keeps the walls, and leaves alone every process that it is not taken for, unless it
stores to a page of it. -/
theorem Walled.step (exact : ∀ trace, ∀ f ∈ P.Kept trace, f ∈ handed trace)
    (walled : Walled (lay.trapSecStart / PGSIZE) k tables)
    (good : Good P.toSupply k own) {op : Op} (step : Step env lay k op k') (safe : Safe k op)
    (entry : EntryOk P.toSupply k op) :
    (∃ tables', Walled (lay.trapSecStart / PGSIZE) k' tables') ∧
      ∀ q, Live k q → actor k op ≠ some q → ¬ WritesTo k q op → Unharmed q k k' := by
  have lendable := walled.lendable good.space.toShape fun f mapped =>
    (good.space.kept f mapped).imp_left (exact _ f)
  have start : ∀ c, HasSpace k c → Enclosed P {c} (userFrames k) k tables k tables := by
    intro c inside
    refine walled.start good.space.ok ?_
    rintro _ rfl
    exact inside
  have conclude : ∀ c k₁ tables₁, actor k op = some c → Enclosed P {c} (userFrames k) k tables k₁ tables₁ →
      Settles {c} (userFrames k) k₁ k' → (∃ tables', Walled (lay.trapSecStart / PGSIZE) k' tables') ∧
      ∀ q, Live k q → actor k op ≠ some q → ¬ WritesTo k q op → Unharmed q k k' := by
    intro c k₁ tables₁ acts enclosed settles
    refine ⟨⟨tables₁, (walled.enclosed lendable enclosed).settled
      (fun f member => enclosed.lendable walled.forest (lendable f member))
      settles⟩, fun q live other _ => ?_⟩
    have away : q ∉ ({c} : Set ℕ) := by
      rintro rfl
      exact other acts
    exact (enclosed.unharmed walled.forest lendable live.1 away).trans (settles.unharmed away)
  obtain ⟨enabled, call⟩ := step
  cases op with
  | allocProcess =>
    obtain ⟨i, mid, inner, rest⟩ := bind_eq_ok.mp call
    obtain ⟨-, rfl⟩ := EStateM.Result.ok.inj rest
    obtain ⟨s, _, _, tables', born⟩ := (walled.forest.born good.space.ok).of_ok inner
    exact ⟨⟨tables', walled.born born lendable⟩, fun q live _ _ =>
      born.unharmed lendable live.1 (freeProcess?_other live born.found)⟩
  | load pid file =>
    obtain ⟨tables₁, enclosed⟩ := (start pid enabled.1).load rfl (fun ehdr init => (safe ehdr init).1) call
    exact conclude pid k' tables₁ rfl enclosed (.refl k')
  | ready pid =>
    exact conclude pid k tables rfl (start pid enabled)
      (((insertToReadyQueue_queued pid k).of_ok call).settles rfl enabled)
  | switchTo pid =>
    obtain ⟨-, rfl⟩ := EStateM.Result.ok.inj call
    have moved : Settles {pid} (userFrames k) k { k with current := pid } :=
      ⟨rfl, fun _ taken _ => taken, fun j _ => ⟨(k.procs j).queueNext, rfl⟩, fun _ _ inside =>
        ⟨inside, rfl, rfl, rfl, rfl⟩⟩
    exact conclude pid k tables rfl (start pid enabled.1)
      (moved.trans (@Settles.setProc _ _ _ _ pid (Set.mem_singleton pid)
        (fun p => { p with frame := { p.frame with kernelSp := p.kstack } })
        ⟨rfl, rfl, rfl, rfl⟩ fun zombie => zombie))
  | trap regs sepc cause =>
    obtain ⟨k₁, k₂, before, tp, served, after⟩ := trap_steps call
    have ok₁ := entry k₁ before.pool before.trace tp
    have enclosed₁ := before.enclosed (start k.current enabled.1) rfl ok₁
    have walled₁ := walled.enclosed lendable enclosed₁
    have good₁ : Good P.toSupply k₁ own := before.saved.quiet.good good ok₁
    have live₁ : Live k₁ k₁.current := by
      rw [before.current]
      exact (before.saved.live _).mpr enabled
    have safe₁ : Safe k₁ (.trap regs sepc cause) := by
      obtain ⟨frame, same⟩ := before.saved.procs k.current
      cases cause with
      | ecall =>
        rw [Safe, before.current, same]
        exact safe
      | _ => trivial
    obtain ⟨⟨tables₂, walled₂⟩, unharmed₂⟩ := walled₁.served exact good₁ live₁ safe₁ served
    have settles : Settles {k.current} ∅ k₂ k' := after.settles rfl
    refine ⟨⟨tables₂, walled₂.settled (fun f none => none.elim) settles⟩, fun q live other _ => ?_⟩
    have away : q ≠ k.current := fun here => other (congrArg some here.symm)
    have first := enclosed₁.unharmed walled.forest lendable live.1 away
    exact first.trans ((unharmed₂ q (first.live.mpr live) (before.current ▸ away)).trans
      (settles.unharmed away))
  | store va index word =>
    obtain ⟨-, rfl⟩ := EStateM.Result.ok.inj call
    obtain ⟨live, leaf, -⟩ := enabled
    have page := lendable _ ⟨k.current, va, live.1, leaf, rfl⟩
    have forest := walled.forest.setPage page.data
      (Function.update (k.mem (frameOf (pteOf k k.current va))) index word)
    have ptes : ∀ j, HasSpace k j → ∀ va',
      pteOf (k.setWord (frameOf (pteOf k k.current va)) index word) j va' = pteOf k j va' := by
      refine fun j inside => walled.forest.samePte inside rfl fun t named => Function.update_of_ne ?_ _ _
      rintro rfl
      exact named (walled.forest.unowned inside page.data)
    refine ⟨⟨tables, forest, fun j inside va' => ?_, walled.held, ?_⟩, fun q liveQ _ away => ?_⟩
    · rw [ptes j inside]
      exact walled.lawful j inside va'
    · rintro f ⟨j, va', inside, user, rfl⟩
      rw [ptes j inside] at user ⊢
      exact walled.walls _ ⟨j, va', inside, user, rfl⟩
    · refine ⟨⟨(k.procs q).queueNext, rfl⟩, ptes q liveQ.1, fun va' user => Function.update_of_ne ?_ _ _⟩
      exact fun same => away ⟨va', user, same⟩

end

section

variable {lay : Layout} {k₀ k k' : Kernel Pool} {ops : List Op}

/-- Without address spaces there are no walls. -/
private theorem reset_walled (procs : ∀ i < NPROC, k.procs i = { zeroProcess with pid := i }) (trapSec : ℕ)
    (own : ℕ → Owner) :
    Walled trapSec k own := by
  have none : ∀ pid, ¬ HasSpace k pid := fun pid inside => inside.2.1 (by rw [procs pid inside.1]; rfl)
  refine ⟨reset_forest procs own, fun pid inside => absurd inside (none pid), fun pid inside =>
    absurd inside (none pid), ?_⟩
  rintro f ⟨pid, _, inside, _⟩
  exact absurd inside (none pid)

/-- The invariant of careful runs: process structures, page tables and walls. -/
private def Watched (lay : Layout) (k : Kernel Pool) : Prop :=
  ∃ own tables, Sane (lay.trapSecStart / PGSIZE) k own ∧ Walled (lay.trapSecStart / PGSIZE) k tables

/-- A careful step keeps the invariant, and leaves alone who does not act. -/
private theorem Watched.step (watched : Watched lay k) {op : Op} (careful : Careful lay k op)
    (step : Step pmmEnv lay k op k') :
    Watched lay k' ∧ ∀ q, Live k q → actor k op ≠ some q → ¬ WritesTo k q op → Unharmed q k k' := by
  obtain ⟨own, tables, sane, walled⟩ := watched
  obtain ⟨sound, safe, hart⟩ := careful
  have good : Good (pmmUserPages lay).toSupply k own := sound.good sane
  have entry := sound.pool.entry hart
  obtain ⟨own', sane'⟩ := (good.outcome step safe entry).sane
  obtain ⟨⟨tables', walled'⟩, unharmed⟩ :=
    walled.step (P := pmmUserPages lay) (fun _ _ inside => inside) good step safe entry
  exact ⟨⟨own', tables', sane', walled'⟩, unharmed⟩

private theorem careful_watched (boot : BootState lay k₀)
    (run : Run (Guarded (Careful lay) (Step pmmEnv lay)) k₀ ops k) : Watched lay k :=
  run.invariant (fun _ _ _ watched step => (watched.step step.1 step.2).1) ⟨_, _, boot.good.sane,
    reset_walled boot.procs _ fun _ _ => none⟩

/-- In every state of a careful run, no entry for the user leads to the page of the trap vector or
to a page table, trapframe, kernel stack or region table of any process. -/
theorem kernel_pages_walled (boot : BootState lay k₀)
    (run : Run (Guarded (Careful lay) (Step pmmEnv lay)) k₀ ops k) {pid va : ℕ}
    (inside : HasSpace k pid) (leaf : UserLeaf (pteOf k pid va)) :
    frameOf (pteOf k pid va) ≠ lay.trapSecStart / PGSIZE ∧ ¬ TablePage k (frameOf (pteOf k pid va)) ∧
      ∀ j, HasSpace k j → ¬ Reserved (k.procs j) (frameOf (pteOf k pid va)) := by
  obtain ⟨own, tables, sane, walled⟩ := careful_watched boot run
  obtain ⟨image, apart⟩ := walled.walls _ ⟨pid, va, inside, leaf, rfl⟩
  exact ⟨image, fun table => sane.shape.tablePage table (sane.shape.leaves pid inside va leaf.1).1, apart⟩

theorem kernel_pages_walled_small : ∃ k, BootState smallLayout smallKernel ∧
    Run (Guarded (Careful smallLayout) (Step pmmEnv smallLayout)) smallKernel smallStart k ∧ HasSpace k 0 ∧
    UserLeaf (pteOf k 0 STACK_PAGE) ∧ frameOf (pteOf k 0 STACK_PAGE) ≠ smallLayout.trapSecStart / PGSIZE ∧
    ¬ TablePage k (frameOf (pteOf k 0 STACK_PAGE)) ∧ ∀ j, HasSpace k j →
    ¬ Reserved (k.procs j) (frameOf (pteOf k 0 STACK_PAGE)) := by
  have checked : (execute pmmEnv smallLayout smallStart smallKernel).any (fun k =>
      decide (HasSpace k 0 ∧ UserLeaf (pteOf k 0 STACK_PAGE))) = true := by decide +kernel
  obtain ⟨k, run, check⟩ := run_of_check checked
  obtain ⟨inside, leaf⟩ := of_decide_eq_true check
  obtain ⟨careful, _⟩ := calm_careful run (by decide) smallKernel_boot.good
  exact ⟨k, smallKernel_boot, careful, inside, leaf, kernel_pages_walled smallKernel_boot careful inside leaf⟩

/-- The steps of a careful run that process `q` takes no part in. -/
def Elsewhere (lay : Layout) (q : ℕ) (k : Kernel Pool) (op : Op) : Prop :=
  Careful lay k op ∧ actor k op ≠ some q ∧ ¬ WritesTo k q op

/-- While a process does not act in a careful run and nobody stores to a page that it maps, its
process structure, its translations and its memory stay as they are. -/
theorem processes_isolated {ops' : List Op} (boot : BootState lay k₀)
    (run : Run (Guarded (Careful lay) (Step pmmEnv lay)) k₀ ops k)
    {q : ℕ} (live : Live k q) (elsewhere : Run (Guarded (Elsewhere lay q) (Step pmmEnv lay)) k ops' k') :
    Unharmed q k k' := by
  have keep : ∀ mid op mid', (Watched lay mid ∧ Unharmed q k mid) →
      Guarded (Elsewhere lay q) (Step pmmEnv lay) mid op mid' →
      Watched lay mid' ∧ Unharmed q k mid' := by
    rintro mid op mid' ⟨watched, before⟩ ⟨⟨careful, other, away⟩, step⟩
    obtain ⟨watched', unharmed⟩ := watched.step careful step
    exact ⟨watched', before.trans (unharmed q (before.live.mpr live) other away)⟩
  exact (elsewhere.invariant keep ⟨careful_watched boot run, .refl q k⟩).2

end

/-- A second process is created and runs. -/
private def secondStarted : List Op := [.allocProcess, .ready 1, .switchTo 1]

/-- The first process waits while a second one is created and forks. -/
theorem processes_isolated_small : ∃ k k', BootState smallLayout smallKernel ∧
    Run (Guarded (Careful smallLayout) (Step pmmEnv smallLayout)) smallKernel smallStart k ∧ Live k 0 ∧
    Run (Guarded (Elsewhere smallLayout 0) (Step pmmEnv smallLayout)) k
      (secondStarted ++ [.trap (request SYS_user_fork 0) 0 .ecall]) k' ∧ Unharmed 0 k k' := by
  have checked : (execute pmmEnv smallLayout smallStart smallKernel).any (fun k => decide (Live k 0) &&
      (execute pmmEnv smallLayout secondStarted k).any fun k₁ => decide (k₁.current = 1) &&
        (execute pmmEnv smallLayout [.trap (request SYS_user_fork 0) 0 .ecall] k₁).any fun _ => true) =
        true := by decide +kernel
  obtain ⟨k, run, check⟩ := run_of_check checked
  obtain ⟨live, check₁⟩ := Bool.and_eq_true_iff.mp check
  obtain ⟨k₁, run₁, check₂⟩ := run_of_check check₁
  obtain ⟨current, check₃⟩ := Bool.and_eq_true_iff.mp check₂
  obtain ⟨k', run', _⟩ := run_of_check check₃
  obtain ⟨careful, own, good⟩ := calm_careful run (by decide) smallKernel_boot.good
  obtain ⟨careful₁, own₁, good₁⟩ := calm_careful run₁ (by decide) good
  obtain ⟨careful', _⟩ := calm_careful run' (by decide) good₁
  have early : Run (Guarded (Elsewhere smallLayout 0) (Step pmmEnv smallLayout)) k secondStarted k₁ := by
    refine careful₁.imp fun op member s t step => ⟨⟨step.1, ?_, ?_⟩, step.2⟩
    · simp only [secondStarted, List.mem_cons, List.not_mem_nil, or_false] at member
      rcases member with rfl | rfl | rfl <;> simp [actor]
    · simp only [secondStarted, List.mem_cons, List.not_mem_nil, or_false] at member
      rcases member with rfl | rfl | rfl <;> exact id
  have late : Run (Guarded (Elsewhere smallLayout 0) (Step pmmEnv smallLayout)) k₁
    [.trap (request SYS_user_fork 0) 0 .ecall] k' := by
    cases careful' with | cons step rest =>
    refine .cons ⟨⟨step.1, ?_, id⟩, step.2⟩ (by cases rest; exact .nil _)
    rw [actor, of_decide_eq_true current]
    decide
  have elsewhere := early.append late
  exact ⟨k, k', smallKernel_boot, careful, of_decide_eq_true live, elsewhere,
    processes_isolated smallKernel_boot careful (of_decide_eq_true live) elsewhere⟩

end Pke.Proofs
