import Pke.Proofs.PmmSupply

/-! # Frames that several processes map

If the allocator hands out frames that nobody maps and `get_page_ref` counts the mappings of a frame, then a
frame that two processes can access is read-only for both, as long as no process with a code region
forks: `elf_load` maps code writable, and `do_fork` leaves it so in the parent.
-/

namespace Pke.Proofs

open Pke.Lib Pke.Model

variable {σ : Type} {env : PageEnv σ} {trapSec : ℕ} {lay : Layout}

/-- A supply of pages that is intact on every hart and after every release. -/
structure Frames (env : PageEnv σ) (trapSec : ℕ) extends Supply env trapSec where
  anyHart : ∀ {k k' : Kernel σ}, k'.pool = k.pool → k'.trace = k.trace → Ok k → Ok k'
  freed : ∀ {k : Kernel σ} {pa : ℕ} {pool : σ}, Ok k → env.free pa k = .ok () pool → Ok (k.gave pa pool)
  keptFreed : ∀ (pa : ℕ) (trace : List PageEvent), Kept trace ⊆ Kept (.free pa :: trace)

/-- The leaf entries through which a user can access a frame, by process and page. -/
def userMappings (k : Kernel σ) (f : ℕ) : Finset (ℕ × ℕ) :=
  (Finset.range NPROC ×ˢ Finset.range (2 ^ 27)).filter fun m =>
    HasSpace k m.1 ∧ UserLeaf (pteOf k m.1 (m.2 * PGSIZE)) ∧ frameOf (pteOf k m.1 (m.2 * PGSIZE)) = f

/-- `get_page_ref` is the number of these entries. -/
def CountsMappings (env : PageEnv σ) : Prop :=
  ∀ (k : Kernel σ) (f : ℕ), env.refs (f * PGSIZE) k = (userMappings k f).card

private theorem mem_userMappings {k : Kernel σ} {f pid va : ℕ} (inside : HasSpace k pid)
    (leaf : UserLeaf (pteOf k pid va)) (frame : frameOf (pteOf k pid va) = f) :
    (pid, pageOf va) ∈ userMappings k f := by
  have page : pteOf k pid (pageOf va * PGSIZE) = pteOf k pid va := by
    apply pteOf_congr
    simp only [pageOf, PGSIZE]
    omega
  have small : pageOf va < 2 ^ 27 := Nat.mod_lt _ (by decide)
  simp only [userMappings, Finset.mem_filter, Finset.mem_product, Finset.mem_range]
  rw [page]
  exact ⟨⟨inside.1, small⟩, inside, leaf, frame⟩

/-- A frame with one mapping is accessible at one page of one process. -/
theorem CountsMappings.unique (counts : CountsMappings env) {k : Kernel σ} {f pid va pid' va' : ℕ}
    (single : ¬ env.refs (f * PGSIZE) k > 1) (inside : HasSpace k pid) (inside' : HasSpace k pid')
    (leaf : UserLeaf (pteOf k pid va)) (leaf' : UserLeaf (pteOf k pid' va'))
    (frame : frameOf (pteOf k pid va) = f) (frame' : frameOf (pteOf k pid' va') = f) : pid' = pid ∧
    pageOf va' = pageOf va := by
  rw [counts k f, gt_iff_lt, Finset.one_lt_card] at single
  by_contra different
  refine single ⟨_, mem_userMappings inside' leaf' frame', _, mem_userMappings inside leaf frame,
    fun same => different ?_⟩
  exact Prod.mk.inj same

section

variable {F : Frames env (lay.trapSecStart / PGSIZE)} {k k' : Kernel σ} {own : Owner}

/-- A handled store fault keeps exclusive access. -/
theorem Resolved.exclusive {va : ℕ} (effect : Resolved F.toSupply k own va k') (counts : CountsMappings env)
    (good : Good F.toSupply k own) (inside : HasSpace k k.current)
    (valid : has (pteOf k k.current va) PTE_V = true) (exclusive : Exclusive k) : Exclusive k' := by
  have others : ∀ {pte : ℕ} {mid : Kernel σ}, Replaced k va pte mid → ∀ pid va', HasSpace mid pid →
      (pid = k.current ∧ pageOf va' = pageOf va) ∨ (HasSpace k pid ∧ pteOf mid pid va' = pteOf k pid va') := by
    intro pte mid replaced pid va' inside'
    have old := replaced.hasSpace.mp inside'
    by_cases here : pid = k.current ∧ pageOf va' = pageOf va
    · exact Or.inl here
    · exact Or.inr ⟨old, by rw [replaced.ptes pid old, editPte, if_neg here]⟩
  cases effect with
  | alone single replaced space =>
    have small := (good.space.leaves _ inside va valid).2
    rw [PTE2PA_eq small] at single
    have entry : pteOf k' k.current va = unshared (pteOf k k.current va) := by
      rw [replaced.ptes _ inside, editPte, if_pos ⟨rfl, rfl⟩]
    by_cases leaf : UserLeaf (pteOf k k.current va)
    · refine exclusive.gain k.current va fun pid va' inside' leaf' => ?_
      rcases others replaced pid va' inside' with here | ⟨old, same⟩
      · exact Or.inl here
      · by_cases frames : frameOf (pteOf k' pid va') = frameOf (pteOf k' k.current va)
        · rw [entry, frameOf_unshared, same] at frames
          exact Or.inl (counts.unique single inside old leaf (same ▸ leaf') rfl frames)
        · exact Or.inr ⟨old, same, frames⟩
    · refine exclusive.congr fun pid va' inside' leaf' => ?_
      rcases others replaced pid va' inside' with ⟨rfl, page⟩ | same
      · rw [pteOf_congr page, entry, (unshared_access _).userLeaf] at leaf'
        exact absurd leaf' leaf
      · exact same
  | copy mid f pool shared fresh replaced space call result =>
    subst result
    have entry : pteOf mid k.current va = copied (pteOf k k.current va) f := by
      rw [replaced.ptes _ inside, editPte, if_pos ⟨rfl, rfl⟩]
    have gain : Exclusive mid := by
      refine exclusive.gain k.current va fun pid va' inside' leaf' => ?_
      rcases others replaced pid va' inside' with here | ⟨old, same⟩
      · exact Or.inl here
      · refine Or.inr ⟨old, same, fun frames => fresh ⟨pid, old, va', ?_, ?_⟩⟩
        · exact same ▸ leaf'.1
        · rw [← same, frames, entry, frameOf_copied]
    exact gain

/-- A handled store fault keeps the address spaces intact. -/
theorem Resolved.good {va : ℕ} (effect : Resolved F.toSupply k own va k') (good : Good F.toSupply k own)
    (inside : HasSpace k k.current) (valid : has (pteOf k k.current va) PTE_V = true) :
    Good F.toSupply k' own := by
  obtain ⟨shape, procs⟩ := effect.sane good inside valid
  cases effect with
  | alone _ replaced space => exact ⟨space, procs⟩
  | copy mid f pool _ _ replaced space call result =>
    subst result
    exact ⟨⟨shape, F.freed space.ok call,
      fun g mapped => (space.kept g mapped).imp (fun kept => F.keptFreed _ _ kept) id⟩, procs⟩

end

/-- The step is none of those that take a heap page from a process. -/
def KeepsHeap : Op → Prop
  | .trap regs _ .ecall => regs .a0 ≠ SYS_user_free_page
  | _ => True

/-- A frame that two processes can access is read-only for both. -/
def SharedReadOnly (k : Kernel σ) : Prop :=
  ∀ pid va pid' va', HasSpace k pid → HasSpace k pid' → pid ≠ pid' → UserLeaf (pteOf k pid va) →
  UserLeaf (pteOf k pid' va') →
    frameOf (pteOf k pid va) = frameOf (pteOf k pid' va') →
    has (pteOf k pid va) PTE_W = false ∧ has (pteOf k pid' va') PTE_W = false

private theorem Exclusive.sharedReadOnly {k : Kernel σ} (exclusive : Exclusive k) : SharedReadOnly k := by
  intro pid va pid' va' inside inside' apart leaf leaf' same
  constructor
  · by_contra writable
    exact apart (exclusive pid va pid' va' inside inside' leaf leaf' (by simpa using writable) same).1
  · by_contra writable
    exact apart.symm (exclusive pid' va' pid va inside' inside leaf' leaf (by simpa using writable) same.symm).1

/-- In every run in which no process with a code region forks, address spaces are intact and
writable frames exclusive. -/
theorem codeless_run (F : Frames env (lay.trapSecStart / PGSIZE)) (counts : CountsMappings env)
    {k₀ k : Kernel σ} {ops : List Op} (reset : ∀ i < NPROC, k₀.procs i = { zeroProcess with pid := i })
    (start : F.Ok k₀)
    (run : Run (Guarded (fun k op => KeepsHeap op ∧ Safe k op ∧ Codeless k op) (Step env lay)) k₀ ops k) :
    (∃ own, Good F.toSupply k own) ∧ Exclusive k := by
  have keep : ∀ (k : Kernel σ) (op : Op) (k' : Kernel σ), ((∃ own, Good F.toSupply k own) ∧ Exclusive k) →
      Guarded (fun k op => KeepsHeap op ∧ Safe k op ∧ Codeless k op) (Step env lay) k op k' →
      (∃ own, Good F.toSupply k' own) ∧ Exclusive k' := by
    rintro k op k' ⟨⟨own, good⟩, exclusive⟩ ⟨⟨heap, safe, codeless⟩, step⟩
    have entry : EntryOk F.toSupply k op := by
      cases op with
      | trap regs sepc cause => exact fun k₁ pool trace _ => F.anyHart pool trace good.space.ok
      | _ => trivial
    cases good.outcome step safe entry with
    | good own' good' exclusive' => exact ⟨⟨own', good'⟩, exclusive' codeless exclusive⟩
    | freed number _ _ _ _ _ _ _ => exact absurd number heap
    | fault before current good₁ inside valid effect after _ =>
      have good₂ := effect.good good₁ inside valid
      have exclusive₂ := effect.exclusive counts good₁ inside valid (before.quiet.exclusive exclusive)
      exact ⟨⟨own, after.quiet.good good₂ (F.anyHart after.pool after.trace good₂.space.ok)⟩,
        after.quiet.exclusive exclusive₂⟩
  have empty : ∀ pid, ¬ HasSpace k₀ pid := fun pid inside => inside.2.1 (by rw [reset pid inside.1]; rfl)
  have begin : (∃ own, Good F.toSupply k₀ own) ∧ Exclusive k₀ := by
    have sane := reset_sane (lay.trapSecStart / PGSIZE) reset
    refine ⟨⟨_, ⟨sane.shape, start, fun f mapped => ?_⟩, sane.procs⟩, fun pid _ _ _ inside =>
      absurd inside (empty pid)⟩
    obtain ⟨pid, inside, _⟩ := mapped
    exact absurd inside (empty pid)
  exact run.invariant keep begin

/-- In every run in which no process with a code region forks, shared frames are read-only, and a
store of one process does not change what another one reads. -/
theorem shared_frames_readOnly (F : Frames env (lay.trapSecStart / PGSIZE)) (counts : CountsMappings env)
    {k₀ k : Kernel σ} {ops : List Op} (reset : ∀ i < NPROC, k₀.procs i = { zeroProcess with pid := i })
    (start : F.Ok k₀)
    (run : Run (Guarded (fun k op => KeepsHeap op ∧ Safe k op ∧ Codeless k op) (Step env lay)) k₀ ops k) :
    SharedReadOnly k ∧ ∀ va index word k', Step env lay k (.store va index word) k' →
      ∀ pid va', HasSpace k pid → pid ≠ k.current → UserLeaf (pteOf k pid va') →
      k'.mem (frameOf (pteOf k pid va')) = k.mem (frameOf (pteOf k pid va')) := by
  obtain ⟨_, exclusive⟩ := codeless_run F counts reset start run
  refine ⟨exclusive.sharedReadOnly, ?_⟩
  rintro va index word k' ⟨⟨live, leaf, writable, _⟩, call⟩ pid va' inside apart leaf'
  obtain ⟨-, rfl⟩ := EStateM.Result.ok.inj call
  refine Function.update_of_ne (fun same => apart ?_) _ _
  exact (exclusive k.current va pid va' live.1 inside leaf leaf' writable same.symm).1.symm

/-- An allocator that hands out one page after the other and never reuses one. -/
def counterEnv : PageEnv ℕ where
  alloc k := if k.pool < 2 ^ 44 then .ok (k.pool * PGSIZE) (k.pool + 1)
  else .error (.panic "out of memory") k.pool
  free _ k := .ok () k.pool
  share _ k := k.pool
  refs pa k := (userMappings k (pa / PGSIZE)).card

theorem counterEnv_counts : CountsMappings counterEnv := by
  intro k f
  have page : f * PGSIZE / PGSIZE = f := Nat.mul_div_cancel _ (by decide)
  simp only [counterEnv, page]

/-- A page in use was handed out. -/
private theorem handed_alloc_mem {trace : List PageEvent} {f : ℕ} (member : f ∈ handed trace) :
    ∃ pa, PageEvent.alloc pa ∈ trace ∧ pa / PGSIZE = f := by
  induction trace with
  | nil => cases member
  | cons e rest ih =>
    have older : f ∈ handed rest → ∃ pa, PageEvent.alloc pa ∈ e :: rest ∧ pa / PGSIZE = f := by
      intro old
      obtain ⟨pa, listed, page⟩ := ih old
      exact ⟨pa, List.mem_cons_of_mem _ listed, page⟩
    cases e with
    | alloc pa =>
      rcases List.mem_cons.mp member with rfl | old
      · exact ⟨pa, List.mem_cons_self, rfl⟩
      · exact older old
    | free pa => exact older (List.mem_of_mem_erase member)
    | grant _ _ => exact older member
    | release _ _ => exact older member
    | create _ => exact older member
    | fork _ _ => exact older member

/-- The pages that were handed out lie below the next one. -/
def CounterOk (trapSec : ℕ) (pool : ℕ) (trace : List PageEvent) : Prop :=
  trapSec < pool ∧ KERN_BASE ≤ pool * PGSIZE ∧ ∀ pa, PageEvent.alloc pa ∈ trace → pa / PGSIZE < pool

private theorem CounterOk.other {trapSec pool : ℕ} {trace : List PageEvent} {e : PageEvent}
    (ok : CounterOk trapSec pool trace) (other : ∀ pa, e ≠ .alloc pa) :
    CounterOk trapSec pool (e :: trace) := by
  obtain ⟨image, ram, below⟩ := ok
  refine ⟨image, ram, fun pa listed => ?_⟩
  rcases List.mem_cons.mp listed with same | old
  · exact absurd same.symm (other pa)
  · exact below pa old

def counterFrames (trapSec : ℕ) : Frames counterEnv trapSec where
  Ok k := CounterOk trapSec k.pool k.trace
  Kept trace := {f | PageEvent.alloc (f * PGSIZE) ∈ trace}
  stable pool trace _ ok := by rwa [pool, trace]
  logged := by
    intro k e log ok
    exact CounterOk.other ok fun pa same => by rw [same] at log; exact log
  share _ ok := ok
  alloc := by
    intro k pa pool ok kept call
    obtain ⟨image, ram, below⟩ := ok
    simp only [counterEnv] at call
    split_ifs at call with small
    obtain ⟨rfl, rfl⟩ := EStateM.Result.ok.inj call
    refine ⟨k.pool, rfl, ram, small, fun member => ?_, image.ne', fun mapped => ?_, ?_⟩
    · obtain ⟨pa, listed, page⟩ := handed_alloc_mem member
      exact absurd (below pa listed) (page ▸ lt_irrefl _)
    · rcases kept _ mapped with listed | same
      · have less := below _ listed
        rw [Nat.mul_div_cancel _ (by decide)] at less
        exact lt_irrefl _ less
      · exact image.ne' same
    · refine ⟨Nat.lt_succ_of_lt image, ram.trans (Nat.mul_le_mul_right _ (Nat.le_succ _)), fun pa listed => ?_⟩
      rcases List.mem_cons.mp listed with same | old
      · obtain rfl := PageEvent.alloc.inj same
        rw [Nat.mul_div_cancel _ (by decide)]
        exact Nat.lt_succ_self _
      · exact Nat.lt_succ_of_lt (below pa old)
  keptLogged := by
    intro e trace log
    ext f
    refine ⟨fun listed => ?_, fun listed => List.mem_cons_of_mem _ listed⟩
    rcases List.mem_cons.mp listed with same | old
    · rw [← same] at log
      exact log.elim
    · exact old
  keptAlloc f trace := by
    rintro g (rfl | old)
    · exact List.mem_cons_self
    · exact List.mem_cons_of_mem _ old
  anyHart pool trace ok := by rwa [pool, trace]
  freed := by
    intro k pa pool ok call
    obtain ⟨-, rfl⟩ := EStateM.Result.ok.inj call
    exact CounterOk.other ok fun _ same => PageEvent.noConfusion same
  keptFreed pa trace f listed := List.mem_cons_of_mem _ listed

/-- A machine on which no process was started yet. -/
def counterKernel : Kernel ℕ where
  pool := 0x80002
  mem _ _ := 0
  procs i := { zeroProcess with pid := i }
  current := 0
  readyQueueHead := none
  tp := 0
  varargs _ := 0
  trace := []

theorem counterKernel_ok : (counterFrames (smallLayout.trapSecStart / PGSIZE)).Ok counterKernel :=
  ⟨by decide, by decide, fun _ listed => absurd listed List.not_mem_nil⟩

/-- A process is started and forks. -/
def startAndFork : List Op := smallStart ++ [.trap (request SYS_user_fork 0) 0 .ecall]

/-- The run of a process without code regions that forks, with what was checked of its last state. -/
theorem startAndFork_run {check : Kernel ℕ → Bool}
    (checked : (execute counterEnv smallLayout smallStart counterKernel).any (fun k =>
      decide ((k.procs k.current).totalMappedRegion = 4) && (execute counterEnv smallLayout
        [.trap (request SYS_user_fork 0) 0 .ecall] k).any check) = true) :
    ∃ k, Run (Guarded (fun k op => KeepsHeap op ∧ Safe k op ∧ Codeless k op) (Step counterEnv smallLayout))
      counterKernel startAndFork k ∧ check k = true := by
  obtain ⟨k, run, both⟩ := run_of_check checked
  obtain ⟨regions, forks⟩ := Bool.and_eq_true_iff.mp both
  obtain ⟨k', fork, good⟩ := run_of_check forks
  have start : Run (Guarded (fun k op => KeepsHeap op ∧ Safe k op ∧
      Codeless k op) (Step counterEnv smallLayout))
      counterKernel smallStart k := by
    refine run.imp fun op member s t step => ⟨?_, step⟩
    simp only [smallStart, List.mem_cons, List.not_mem_nil, or_false] at member
    rcases member with rfl | rfl | rfl
    · exact ⟨trivial, trivial, trivial⟩
    · exact ⟨trivial, trivial, trivial⟩
    · exact ⟨trivial, trivial, trivial⟩
  have last : Run (Guarded (fun k op => KeepsHeap op ∧ Safe k op ∧
      Codeless k op) (Step counterEnv smallLayout)) k
      [.trap (request SYS_user_fork 0) 0 .ecall] k' := by
    cases fork with
    | cons head tail =>
      refine .cons ⟨⟨fun number => absurd number (by decide), fun number => absurd number (by decide),
        fun _ i low high => ?_⟩, head⟩ ?_
      · rw [of_decide_eq_true regions] at high
        exact absurd high (Nat.not_lt.mpr low)
      · cases tail
        exact .nil _
  exact ⟨k', start.append last, good⟩

/-- Without code, parent and child share the page of the stack read-only. -/
theorem shared_frames_readOnly_small : ∃ k, Run (Guarded (fun k op => KeepsHeap op ∧ Safe k op ∧ Codeless k op)
    (Step counterEnv smallLayout)) counterKernel startAndFork k ∧ SharedReadOnly k := by
  obtain ⟨k, run, _⟩ := @startAndFork_run (fun _ => true) (by decide +kernel)
  exact ⟨k, run, (shared_frames_readOnly (counterFrames _) counterEnv_counts
    (fun _ _ => rfl) counterKernel_ok run).1⟩

/-- A program with one readable and executable segment of 16 bytes at `0x10000`. -/
def smallProgram : HostFile where
  size := 136
  byte
    | 0 => 0x7F
    | 1 => 0x45
    | 2 => 0x4C
    | 3 => 0x46
    | 26 => 1
    | 32 => 64
    | 56 => 1
    | 64 => 1
    | 68 => 5
    | 72 => 120
    | 82 => 1
    | 96 => 16
    | 104 => 16
    | _ => 0

/-- A process with code forks: both map the page of the code, and the parent can write it. -/
theorem shared_code_small :
    ∃ k, CountsMappings counterEnv ∧ (counterFrames (smallLayout.trapSecStart / PGSIZE)).Ok counterKernel ∧
      Run (Step counterEnv smallLayout) counterKernel [.allocProcess, .load 0 smallProgram,
      .ready 0, .switchTo 0, .trap (request SYS_user_fork 0) 0 .ecall] k ∧
      ¬ SharedReadOnly k := by
  have checked : (execute counterEnv smallLayout [.allocProcess, .load 0 smallProgram, .ready 0, .switchTo 0,
      .trap (request SYS_user_fork 0) 0 .ecall] counterKernel).any
      (fun k => decide (HasSpace k 0 ∧ HasSpace k 1 ∧
        UserLeaf (pteOf k 0 0x10000) ∧ UserLeaf (pteOf k 1 0x10000) ∧
        frameOf (pteOf k 0 0x10000) = frameOf (pteOf k 1 0x10000) ∧ has (pteOf k 0 0x10000) PTE_W = true)) =
        true := by
    decide +kernel
  obtain ⟨k, run, check⟩ := run_of_check checked
  obtain ⟨parent, child, leaf, leaf', frame, writable⟩ := of_decide_eq_true check
  refine ⟨k, counterEnv_counts, counterKernel_ok, run, fun readOnly => ?_⟩
  rw [(readOnly 0 0x10000 1 0x10000 parent child (by decide) leaf leaf' frame).1] at writable
  cases writable

end Pke.Proofs
