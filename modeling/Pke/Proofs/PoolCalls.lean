import Pke.Lib.Exec
import Pke.Model.Trap

/-! # How the kernel reaches the allocator and the ready queue

Kernel code touches the allocator and `tp` through the functions of `PageEnv` only, and most of it
leaves the fields alone that the scheduler works on. `Calm` collects what is needed of a relation
between states so that every function of the second kind respects it, on all paths and not only on
those that return; `Via` does so for all kernel functions.
-/

namespace Pke.Proofs

open Pke.Lib Pke.Model

variable {σ : Type} {α β : Type}

/-- The allocator, `tp` and everything the scheduler looks at are the same. -/
structure Untouched (k k' : Kernel σ) : Prop where
  pool : k'.pool = k.pool
  tp : k'.tp = k.tp
  procs : ∀ i, (k'.procs i).status = (k.procs i).status ∧ (k'.procs i).queueNext = (k.procs i).queueNext
  head : k'.readyQueueHead = k.readyQueueHead
  current : k'.current = k.current

namespace Untouched

variable {k : Kernel σ}

theorem refl (k : Kernel σ) : Untouched k k := ⟨rfl, rfl, fun _ => ⟨rfl, rfl⟩, rfl, rfl⟩

theorem setMem (mem : ℕ → ℕ → ℕ) : Untouched k { k with mem := mem } :=
  ⟨rfl, rfl, fun _ => ⟨rfl, rfl⟩, rfl, rfl⟩

theorem record (e : PageEvent) : Untouched k (k.record e) := ⟨rfl, rfl, fun _ => ⟨rfl, rfl⟩, rfl, rfl⟩

theorem setProc {i : ℕ} {change : Process → Process}
    (keeps : ∀ p, (change p).status = p.status ∧ (change p).queueNext = p.queueNext) :
    Untouched k (k.setProc i change) := by
  refine ⟨rfl, rfl, fun j => ?_, rfl, rfl⟩
  by_cases here : j = i
  · subst here
    have self : (k.setProc j change).procs j = change (k.procs j) := Function.update_self ..
    rw [self]
    exact keeps _
  · have other : (k.setProc i change).procs j = k.procs j := Function.update_of_ne here ..
    rw [other]
    exact ⟨rfl, rfl⟩

end Untouched

/-- A transitive relation that the page functions respect and that does not see the rest of the
kernel, except for the fields of the scheduler. -/
structure Calm (env : PageEnv σ) (rel : Kernel σ → Kernel σ → Prop) : Prop where
  trans : ∀ {a b c}, rel a b → rel b c → rel a c
  quiet : ∀ {k k' : Kernel σ}, Untouched k k' → rel k k'
  alloc : Advances rel env.allocPage
  free : ∀ pa, Advances rel (env.pfree pa)
  share : ∀ pa, Advances rel (env.getPage pa)

namespace Calm

variable {env : PageEnv σ} {lay : Layout} {rel : Kernel σ → Kernel σ → Prop} (calm : Calm env rel)

include calm

theorem bind {x : Exec (Kernel σ) α} {f : α → Exec (Kernel σ) β} (first : Advances rel x)
    (second : ∀ a, Advances rel (f a)) : Advances rel (x >>= f) := Advances.bind calm.trans first second

theorem refl (k : Kernel σ) : rel k k := calm.quiet (.refl k)

theorem pure (a : α) : Advances rel (Pure.pure a : Exec (Kernel σ) α) := Advances.pure calm.refl a

theorem throw (e : Stop) : Advances rel (MonadExcept.throw e : Exec (Kernel σ) α) := Advances.throw calm.refl e

/-- Reading the state. -/
theorem look {f : Kernel σ → Exec (Kernel σ) β} (rest : ∀ k, Advances rel (f k)) : Advances rel (get >>= f) :=
  calm.bind calm.refl rest

theorem update {f : Kernel σ → Kernel σ} (same : ∀ k, Untouched k (f k)) :
    Advances rel (modify f : Exec (Kernel σ) PUnit) :=
  fun k => calm.quiet (same k)

/-- A change that neither the allocator nor the scheduler sees, followed by the rest. -/
theorem next {f : Kernel σ → Kernel σ} {g : PUnit → Exec (Kernel σ) β} (rest : Advances rel (g ⟨⟩))
    (same : ∀ k, Untouched k (f k)) :
    Advances rel ((modify f : Exec (Kernel σ) PUnit) >>= g) := calm.bind (calm.update same) fun _ => rest

theorem kassert (condition : Bool) (text : String) : Advances rel (Model.kassert condition text) := by
  cases condition with
  | true => exact calm.pure ()
  | false => exact calm.throw _

theorem assert (condition : Bool) (text : String) : Advances rel (Model.assert condition text) := by
  cases condition with
  | true => exact calm.pure ()
  | false => exact calm.throw _

theorem forM_range {body : ℕ → Exec (Kernel σ) Unit} (round : ∀ i, Advances rel (body i)) (n : ℕ) :
    Advances rel ((List.range n).forM body) := by
  induction n with
  | zero => exact calm.pure ()
  | succ n ih =>
    rw [forM_range_succ]
    exact calm.bind ih fun _ => round n

theorem setPte (slot : Slot) (pte : ℕ) : Advances rel (Model.setPte slot pte) := calm.update fun _ => .setMem _

theorem clearPage (page : ℕ) : Advances rel (Model.clearPage page) := calm.update fun _ => .setMem _

theorem casPte (slot : Slot) (expected new : ℕ) : Advances rel (Model.casPte slot expected new) := by
  refine calm.look fun k => ?_
  split_ifs
  · exact calm.bind (calm.setPte _ _) fun _ => calm.pure _
  · exact calm.pure _

theorem pageWalkLoop (va level : ℕ) (alloc : Bool) (n pt : ℕ) :
    Advances rel (Model.pageWalkLoop env va level alloc n pt) := by
  induction n generalizing pt with
  | zero => exact calm.pure _
  | succ n ih =>
    rw [Model.pageWalkLoop]
    refine calm.look fun k => ?_
    dsimp only
    split_ifs
    · exact ih _
    · refine calm.bind calm.alloc fun page => ?_
      split_ifs
      · refine calm.bind (calm.casPte _ _ _) fun won => ?_
        cases won with
        | true => exact calm.bind (calm.clearPage _) fun _ => ih _
        | false => exact calm.bind (calm.free _) fun _ => calm.look fun _ => ih _
      · exact calm.pure _
    · exact calm.pure _

theorem pageWalk (dir va level : ℕ) (alloc : Bool) : Advances rel (Model.pageWalk env dir va level alloc) := by
  refine calm.bind (calm.kassert _ _) fun _ => calm.bind (calm.pageWalkLoop _ _ _ _ _) fun pt? => ?_
  cases pt? with
  | none => exact calm.pure _
  | some pt => exact calm.pure _

theorem mapPagesLoop (dir perm n first pa : ℕ) : Advances rel (Model.mapPagesLoop env dir perm n first pa) := by
  induction n generalizing first pa with
  | zero => exact calm.pure _
  | succ n ih =>
    rw [Model.mapPagesLoop]
    refine calm.bind (calm.pageWalk _ _ _ _) fun slot? => ?_
    cases slot? with
    | none => exact calm.pure _
    | some slot =>
      refine calm.look fun k => ?_
      split_ifs
      · exact calm.bind (calm.throw _) fun _ => calm.bind (calm.setPte _ _) fun _ => ih _ _
      · exact calm.bind (calm.setPte _ _) fun _ => ih _ _

theorem userVmMap (dir va size pa perm : ℕ) : Advances rel (Model.userVmMap env dir va size pa perm) := by
  refine calm.bind (calm.mapPagesLoop _ _ _ _ _) fun mapped => ?_
  cases mapped with
  | true => exact calm.pure _
  | false => exact calm.throw _

theorem lookupPa (table va : ℕ) : Advances rel (Model.lookupPa env table va) := by
  rw [Model.lookupPa]
  split_ifs
  · exact calm.pure _
  · refine calm.bind (calm.pageWalk _ _ _ _) fun slot? => ?_
    cases slot? with
    | none => exact calm.pure _
    | some slot =>
      refine calm.look fun k => ?_
      dsimp only
      split_ifs
      · exact calm.pure _
      · exact calm.pure _

theorem userVaToPa (dir va : ℕ) : Advances rel (Model.userVaToPa env dir va) := by
  refine calm.bind (calm.pageWalk _ _ _ _) fun slot? => ?_
  cases slot? with
  | none => exact calm.pure _
  | some slot =>
    refine calm.look fun k => ?_
    dsimp only
    split_ifs <;> exact calm.pure _

theorem userVmUnmapLoop (dir : ℕ) (free : Bool) (n first : ℕ) :
    Advances rel (Model.userVmUnmapLoop env dir free n first) := by
  induction n generalizing first with
  | zero => exact calm.pure _
  | succ n ih =>
    rw [Model.userVmUnmapLoop]
    refine calm.bind (calm.pageWalk _ _ _ _) fun slot? => ?_
    cases slot? with
    | none => exact ih _
    | some slot =>
      refine calm.look fun k => ?_
      dsimp only
      split_ifs
      · exact calm.bind (calm.free _) fun _ => calm.bind (calm.setPte _ _) fun _ => ih _
      · exact calm.bind (calm.setPte _ _) fun _ => ih _
      · exact ih _

theorem allocProcess : Advances rel (Model.allocProcess env lay) := by
  refine calm.look fun k => ?_
  cases freeProcess? k.procs with
  | none => exact calm.throw _
  | some i =>
    refine calm.next ?_ fun _ => .record _
    refine calm.bind calm.alloc fun trapframe => calm.next ?_ fun _ => .setProc fun _ => ⟨rfl, rfl⟩
    refine calm.bind calm.alloc fun pagetable => calm.next (calm.bind (calm.clearPage _) fun _ => ?_) fun _ =>
      .setProc fun _ => ⟨rfl, rfl⟩
    refine calm.bind calm.alloc fun kstack => calm.next ?_ fun _ => .setProc fun _ => ⟨rfl, rfl⟩
    refine calm.bind calm.alloc fun userStack => calm.next ?_ fun _ => .setProc fun _ => ⟨rfl, rfl⟩
    refine calm.bind calm.alloc fun mappedInfo => calm.next ?_ fun _ => .setProc fun _ => ⟨rfl, rfl⟩
    refine calm.bind (calm.userVmMap _ _ _ _ _) fun _ => calm.next ?_ fun _ => .setProc fun _ => ⟨rfl, rfl⟩
    refine calm.bind (calm.userVmMap _ _ _ _ _) fun _ => calm.next ?_ fun _ => .setProc fun _ => ⟨rfl, rfl⟩
    refine calm.bind (calm.userVmMap _ _ _ _ _) fun _ => calm.next ?_ fun _ => .setProc fun _ => ⟨rfl, rfl⟩
    refine calm.next (calm.next (calm.next (calm.pure _) fun _ => .setProc fun _ => ⟨rfl, rfl⟩) fun _ =>
      .setProc fun _ => ⟨rfl, rfl⟩) fun _ => .setProc fun _ => ⟨rfl, rfl⟩

theorem elfAllocMb (p va size : ℕ) : Advances rel (Model.elfAllocMb env p va size) := by
  refine calm.bind (calm.kassert _ _) fun _ => calm.bind calm.alloc fun pa => ?_
  have rest : Advances rel (do
      Model.clearPage (pa / PGSIZE)
      Model.userVmMap env ((← get).procs p).pagetable va PGSIZE pa (protToType true true true true)
      return pa) := calm.bind (calm.clearPage _) fun _ => calm.look fun _ =>
        calm.bind (calm.userVmMap _ _ _ _ _) fun _ => calm.pure _
  dsimp only
  split_ifs
  · exact calm.bind (calm.throw _) fun _ => rest
  · exact rest

theorem loadSegment (p : ℕ) (f : HostFile) (ph : ProgHeader) : Advances rel (Model.loadSegment env p f ph) := by
  rw [Model.loadSegment]
  split_ifs
  · exact calm.pure _
  · exact calm.pure _
  · refine calm.bind (calm.elfAllocMb _ _ _) fun dest => calm.next ?_ fun _ => .setMem _
    split_ifs
    · exact calm.pure _
    · refine calm.look fun k => calm.next ?_ fun _ => .setProc fun _ => ⟨rfl, rfl⟩
      cases segmentOf ph.flags with
      | none => exact calm.throw _
      | some type => exact calm.next (calm.pure _) fun _ => .setProc fun _ => ⟨rfl, rfl⟩

theorem elfLoadLoop (p : ℕ) (f : HostFile) (ehdr : ElfHeader) (n i : ℕ) :
    Advances rel (Model.elfLoadLoop env p f ehdr n i) := by
  induction n generalizing i with
  | zero => exact calm.pure _
  | succ n ih =>
    rw [Model.elfLoadLoop]
    dsimp only
    split_ifs
    · exact calm.pure _
    · exact ih _
    · refine calm.bind (calm.loadSegment _ _ _) fun status? => ?_
      cases status? with
      | none => exact ih _
      | some status => exact calm.pure _

theorem loadBincodeFromHostElf (p : ℕ) (f : HostFile) :
    Advances rel (Model.loadBincodeFromHostElf env p f) := by
  rw [Model.loadBincodeFromHostElf]
  cases elfInit f with
  | error status => exact calm.throw _
  | ok ehdr =>
    refine calm.bind (calm.elfLoadLoop _ _ _ _ _) fun status => ?_
    split_ifs
    · exact calm.bind (calm.throw _) fun _ => calm.update fun _ => .setProc fun _ => ⟨rfl, rfl⟩
    · exact calm.update fun _ => .setProc fun _ => ⟨rfl, rfl⟩

theorem forkSharePage (parent child va : ℕ) : Advances rel (Model.forkSharePage env parent child va) := by
  refine calm.look fun k => calm.bind (calm.pageWalk _ _ _ _) fun slot? => ?_
  cases slot? with
  | none => exact calm.throw _
  | some slot =>
    refine calm.look fun k => ?_
    dsimp only
    split_ifs
    · refine calm.bind (calm.setPte _ _) fun _ => calm.look fun _ => calm.bind (calm.share _) fun _ => ?_
      refine calm.look fun _ => calm.bind (calm.pageWalk _ _ _ _) fun childSlot? => ?_
      cases childSlot? with
      | none => exact calm.throw _
      | some childSlot => exact calm.look fun _ => calm.setPte _ _
    · refine calm.look fun _ => calm.bind (calm.share _) fun _ => ?_
      refine calm.look fun _ => calm.bind (calm.pageWalk _ _ _ _) fun childSlot? => ?_
      cases childSlot? with
      | none => exact calm.throw _
      | some childSlot => exact calm.look fun _ => calm.setPte _ _
    · exact calm.pure _

theorem forkCodePage (parent child va : ℕ) : Advances rel (Model.forkCodePage env parent child va) :=
  calm.look fun _ => calm.bind (calm.lookupPa _ _) fun _ => calm.look fun _ => calm.userVmMap _ _ _ _ _

theorem forkRegion (parent child i : ℕ) : Advances rel (Model.forkRegion env parent child i) := by
  refine calm.look fun k => ?_
  dsimp only
  split
  · exact calm.update fun _ => .setProc fun _ => ⟨rfl, rfl⟩
  · exact calm.forM_range (fun _ => calm.forkSharePage _ _ _) _
  · exact calm.bind (calm.forM_range (fun _ => calm.forkSharePage _ _ _) _) fun _ => calm.update fun _ =>
      .setProc fun _ => ⟨rfl, rfl⟩
  · exact calm.look fun _ => calm.bind (calm.lookupPa _ _) fun _ =>
      calm.bind (calm.forM_range (fun _ => calm.forkCodePage _ _ _) _) fun _ => calm.update fun _ =>
      .setProc fun _ => ⟨rfl, rfl⟩
  · exact calm.pure _

theorem sysUserAllocatePage : Advances rel (Model.sysUserAllocatePage env) := by
  refine calm.bind calm.alloc fun pa => calm.look fun k => calm.look fun k' => ?_
  have rest : ∀ va, Advances rel (do
      Model.userVmMap env ((← get).procs k.current).pagetable va PGSIZE pa (protToType true true false true)
      modify fun k' => k'.record (.grant k.current va)
      return va) :=
    fun va => calm.look fun _ => calm.bind (calm.userVmMap _ _ _ _ _) fun _ =>
      calm.next (calm.pure _) fun _ => .record _
  dsimp only
  split_ifs
  · refine calm.next (calm.bind (calm.assert _ _) fun _ => calm.bind (calm.pure _) rest) fun _ =>
      .setProc fun _ => ⟨rfl, rfl⟩
  · refine calm.next (calm.next (calm.bind (calm.pure _) rest) fun _ => .setProc fun _ => ⟨rfl, rfl⟩) fun _ =>
      .setProc fun _ => ⟨rfl, rfl⟩

theorem pushFreePage (current va : ℕ) : Advances rel (Model.pushFreePage current va) := by
  refine calm.look fun k => ?_
  split_ifs
  · exact calm.update fun _ => .setProc fun _ => ⟨rfl, rfl⟩
  · exact calm.throw _

theorem sysUserFreePage (va : ℕ) : Advances rel (Model.sysUserFreePage env va) := by
  refine calm.look fun k => calm.look fun k => calm.bind (calm.userVmUnmapLoop _ _ _ _) fun _ => ?_
  exact calm.bind (calm.pushFreePage _ _) fun _ => calm.update fun _ => .record _

theorem handleUserPageFault (mcause stval : ℕ) : Advances rel (Model.handleUserPageFault env mcause stval) := by
  rw [Model.handleUserPageFault]
  split_ifs
  · refine calm.look fun k => calm.look fun k => calm.bind (calm.pageWalk _ _ _ _) fun slot? => ?_
    cases slot? with
    | none => exact calm.throw _
    | some slot =>
      refine calm.look fun k => ?_
      dsimp only
      split_ifs
      · refine calm.bind (calm.look fun _ => calm.pure _) fun refs => ?_
        split_ifs
        · refine calm.bind calm.alloc fun newPa => ?_
          have rest : Advances rel (do
              modify fun k' => k'.setPage (newPa / PGSIZE) (k'.mem (PTE2PA (pteAt k slot) / PGSIZE))
              Model.setPte slot (PA2PTE newPa ||| clear (pteAt (← get) slot % 2 ^ 10) PTE_COW ||| PTE_W)
              env.pfree (PTE2PA (pteAt k slot)) : Exec (Kernel σ) Unit) := by
            refine calm.next (calm.look fun _ => ?_) fun _ => .setMem _
            exact calm.bind (calm.setPte _ _) fun _ => calm.free _
          split_ifs
          · exact calm.bind (calm.throw _) fun _ => rest
          · exact rest
        · exact calm.setPte _ _
      · exact calm.throw _
  · exact calm.pure _

theorem sysUserPrintText (args out : ℕ → ℕ)
    (buf : ℕ) : Advances rel (Model.sysUserPrintText env args out buf) := by
  refine calm.look fun _ => calm.look fun _ => calm.bind (calm.userVaToPa _ _) fun pa? => ?_
  cases pa? with
  | none => exact calm.throw _
  | some pa =>
    refine calm.look fun k => ?_
    cases sprint (physByte k.mem) args STRING_BOUND out pa with
    | none => exact calm.throw _
    | some printed =>
      dsimp only
      split_ifs
      · exact calm.pure _
      · exact calm.throw _

theorem sysUserPrint (buf : ℕ) : Advances rel (Model.sysUserPrint env buf) :=
  calm.look fun _ => calm.bind (calm.sysUserPrintText _ _ _) fun _ => calm.pure _

theorem sysUserPrintpa (va : ℕ) : Advances rel (Model.sysUserPrintpa env va) := by
  refine calm.look fun _ => calm.look fun _ => calm.bind (calm.pageWalk _ _ _ _) fun slot? => ?_
  cases slot? with
  | none => exact calm.pure _
  | some slot =>
    refine calm.look fun k => ?_
    dsimp only
    split_ifs
    · exact calm.pure _
    · exact calm.pure _

end Calm

/-- A transitive relation that the page functions respect and that does not see the rest of the kernel. -/
structure Via (env : PageEnv σ) (rel : Kernel σ → Kernel σ → Prop) : Prop where
  trans : ∀ {a b c}, rel a b → rel b c → rel a c
  quiet : ∀ {k k' : Kernel σ}, k'.pool = k.pool → k'.tp = k.tp → rel k k'
  alloc : Advances rel env.allocPage
  free : ∀ pa, Advances rel (env.pfree pa)
  share : ∀ pa, Advances rel (env.getPage pa)

namespace Via

variable {env : PageEnv σ} {lay : Layout} {rel : Kernel σ → Kernel σ → Prop} (via : Via env rel)

include via

theorem calm : Calm env rel :=
  ⟨via.trans, fun same => via.quiet same.pool same.tp, via.alloc, via.free, via.share⟩

theorem update {f : Kernel σ → Kernel σ} (pool : ∀ k, (f k).pool = k.pool) (tp : ∀ k, (f k).tp = k.tp) :
    Advances rel (modify f : Exec (Kernel σ) PUnit) := fun k => via.quiet (pool k) (tp k)

/-- A change of the kernel that is none of the allocator, followed by the rest. -/
theorem next {f : Kernel σ → Kernel σ} {g : PUnit → Exec (Kernel σ) β} (rest : Advances rel (g ⟨⟩))
    (pool : ∀ k, (f k).pool = k.pool) (tp : ∀ k, (f k).tp = k.tp) :
    Advances rel ((modify f : Exec (Kernel σ) PUnit) >>= g) := via.calm.bind (via.update pool tp) fun _ => rest

theorem insertToReadyQueue (proc : ℕ) : Advances rel (Model.insertToReadyQueue proc) := by
  refine via.calm.look fun k => ?_
  cases k.readyQueueHead with
  | none => exact via.next (via.update (fun _ => rfl) fun _ => rfl) (fun _ => rfl) fun _ => rfl
  | some head =>
    dsimp only
    split
    · exact via.calm.throw _
    · exact via.calm.pure _
    · exact via.next (via.update (fun _ => rfl) fun _ => rfl) (fun _ => rfl) fun _ => rfl

theorem doFork (parent : ℕ) : Advances rel (Model.doFork env lay parent) := by
  refine via.calm.bind via.calm.allocProcess fun child => via.calm.look fun k => ?_
  refine via.calm.bind (via.calm.forM_range (fun _ => via.calm.forkRegion _ _ _) _) fun _ =>
    via.next ?_ (fun _ => rfl) fun _ => rfl
  refine via.next (via.calm.bind (via.insertToReadyQueue _) fun _ => ?_) (fun _ => rfl) fun _ => rfl
  exact via.next (via.calm.pure _) (fun _ => rfl) fun _ => rfl

theorem doSyscall (a0 a1 : ℕ) : Advances rel (Model.doSyscall env lay a0 a1) := by
  rw [Model.doSyscall]
  split_ifs
  · exact via.calm.sysUserPrint _
  · exact via.calm.look fun _ => via.next (via.calm.pure _) (fun _ => rfl) fun _ => rfl
  · exact via.calm.sysUserAllocatePage
  · exact via.calm.bind (via.calm.sysUserFreePage _) fun _ => via.calm.pure _
  · exact via.calm.look fun _ => via.calm.bind (via.doFork _) fun _ => via.calm.look fun _ => via.calm.pure _
  · exact via.calm.throw _
  · exact via.calm.pure _
  · exact via.calm.sysUserPrintpa _
  · exact via.calm.throw _

theorem smodeTrapHandler (cause : Cause) : Advances rel (Model.smodeTrapHandler env lay cause) := by
  cases cause with
  | ecall =>
    refine via.calm.look fun _ => via.next (via.calm.look fun _ => via.calm.bind (via.doSyscall _ _) fun _ =>
      ?_) (fun _ => rfl) fun _ => rfl
    exact via.update (fun _ => rfl) fun _ => rfl
  | timer => exact via.calm.throw _
  | storePageFault stval => exact via.calm.handleUserPageFault _ _
  | loadPageFault stval => exact via.calm.handleUserPageFault _ _
  | other => exact via.calm.throw _

end Via

end Pke.Proofs
