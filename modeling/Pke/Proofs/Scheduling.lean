import Mathlib.Data.List.Perm.Subperm
import Pke.Model.Sched
import Pke.Proofs.PoolCalls
import Pke.Proofs.SharedFrames

/-! # The scheduler over whole runs

`QueueOk` says that the links from `ready_queue_head` form a list without repetition of exactly the
`READY` processes. A run starts with `init_proc_pool`, loads a program, and continues with traps of
the running process; a forked child joins the end of the queue, and a process that exits hands over
to its front.
-/

namespace Pke.Proofs

open Pke.Lib Pke.Model

variable {σ : Type} {env : PageEnv σ} {lay : Layout}

/-- The links from a pointer on lead through exactly these processes and end in the null pointer. -/
def Linked (procs : ℕ → Process) : Option ℕ → List ℕ → Prop
  | none, [] => True
  | some i, j :: rest => i = j ∧ Linked procs (procs i).queueNext rest
  | _, _ => False

/-- The ready queue is a list of the `READY` processes. -/
structure QueueOk (k : Kernel σ) (queue : List ℕ) : Prop where
  linked : Linked k.procs k.readyQueueHead queue
  nodup : queue.Nodup
  ready : ∀ i, i ∈ queue ↔ i < NPROC ∧ (k.procs i).status = .READY

/-- What the scheduler looks at is the same. -/
structure SameQueue (k k' : Kernel σ) : Prop where
  procs : ∀ i, (k'.procs i).status = (k.procs i).status ∧ (k'.procs i).queueNext = (k.procs i).queueNext
  head : k'.readyQueueHead = k.readyQueueHead
  current : k'.current = k.current

theorem SameQueue.refl (k : Kernel σ) : SameQueue k k := ⟨fun _ => ⟨rfl, rfl⟩, rfl, rfl⟩

theorem Untouched.sameQueue {k k' : Kernel σ} (same : Untouched k k') :
    SameQueue k k' := ⟨same.procs, same.head, same.current⟩

theorem Untouched.setFrame (k : Kernel σ) (change : Trapframe → Trapframe) : Untouched k (k.setFrame change) :=
  .setProc fun _ => ⟨rfl, rfl⟩

/-- The entry of a trap. -/
private theorem sameQueue_entered (k : Kernel σ) (regs : Regs)
    (sepc : ℕ) : SameQueue k (k.entered regs sepc) := by
  have saved := (Untouched.setFrame k fun frame =>
    { frame with regs := Function.update regs .t6 (k.procs k.current).trapframe, epc := sepc }).sameQueue
  exact ⟨saved.procs, rfl, rfl⟩

/-- The return to the current process. -/
private theorem sameQueue_switchTo (k : Kernel σ) : ∃ k', switchTo k.current k = .ok () k' ∧
    SameQueue k k' := by
  have changed : Untouched k (k.setProc k.current fun p =>
    { p with frame := { p.frame with kernelSp := p.kstack } }) :=
    .setProc fun _ => ⟨rfl, rfl⟩
  exact ⟨_, rfl, changed.sameQueue⟩

/-- Kernel code that does not deal with the queue leaves it alone. -/
theorem calm_sameQueue (env : PageEnv σ) : Calm env SameQueue where
  trans first second :=
    ⟨fun i => ⟨(second.procs i).1.trans (first.procs i).1, (second.procs i).2.trans (first.procs i).2⟩,
      second.head.trans first.head, second.current.trans first.current⟩
  quiet same := same.sameQueue
  alloc k := by
    rw [PageEnv.allocPage]
    cases env.alloc k with
    | ok pa pool => exact ⟨fun _ => ⟨rfl, rfl⟩, rfl, rfl⟩
    | error e pool => exact ⟨fun _ => ⟨rfl, rfl⟩, rfl, rfl⟩
  free pa k := by
    rw [PageEnv.pfree]
    cases env.free pa k with
    | ok _ pool => exact ⟨fun _ => ⟨rfl, rfl⟩, rfl, rfl⟩
    | error e pool => exact ⟨fun _ => ⟨rfl, rfl⟩, rfl, rfl⟩
  share _ _ := ⟨fun _ => ⟨rfl, rfl⟩, rfl, rfl⟩

theorem SameQueue.yields {k mid : Kernel σ} (same : SameQueue k mid) {α : Type} {x : Exec (Kernel σ) α}
    (advances : Advances SameQueue x) : Yields x mid fun _ k' => SameQueue k k' := by
  refine Ensures.of_run fun a t call => ?_
  have rest := advances mid
  rw [call] at rest
  exact ⟨fun i => ⟨(rest.procs i).1.trans (same.procs i).1, (rest.procs i).2.trans (same.procs i).2⟩,
    rest.head.trans same.head, rest.current.trans same.current⟩

namespace Linked

variable {procs procs' : ℕ → Process}

theorem congr {queue : List ℕ} (same : ∀ i ∈ queue, (procs' i).queueNext = (procs i).queueNext)
    {start : Option ℕ} (linked : Linked procs start queue) : Linked procs' start queue := by
  induction queue generalizing start with
  | nil => cases start <;> exact linked
  | cons j rest ih =>
    cases start with
    | none => exact linked
    | some i =>
      obtain ⟨rfl, linked⟩ := linked
      refine ⟨rfl, ?_⟩
      rw [same i List.mem_cons_self]
      exact ih (fun j inside => same j (List.mem_cons_of_mem _ inside)) linked

/-- A queue that is not empty starts at its first process. -/
theorem start_eq {start : Option ℕ} {j : ℕ} {rest : List ℕ} (linked : Linked procs start (j :: rest)) :
    start = some j ∧ Linked procs (procs j).queueNext rest := by
  cases start with
  | none => exact linked.elim
  | some i =>
    obtain ⟨rfl, linked⟩ := linked
    exact ⟨rfl, linked⟩

/-- The queue is a function of the pointers. -/
theorem unique {xs ys : List ℕ} {start : Option ℕ} (first : Linked procs start xs)
    (second : Linked procs start ys) :
    xs = ys := by
  induction xs generalizing start ys with
  | nil =>
    cases ys with
    | nil => rfl
    | cons y ys =>
      rw [second.start_eq.1] at first
      exact first.elim
  | cons x xs ih =>
    obtain ⟨rfl, tail⟩ := first.start_eq
    cases ys with
    | nil => exact second.elim
    | cons y ys =>
      obtain ⟨rfl, second⟩ := second
      rw [ih tail second]

/-- The part of a queue from one of its processes on. -/
private theorem suffix {queue : List ℕ} {start : Option ℕ} {j : ℕ} (linked : Linked procs start queue)
    (member : j ∈ queue) :
    ∃ rest, rest.length < queue.length ∧ Linked procs (some j) (j :: rest) := by
  induction queue generalizing start with
  | nil => exact absurd member List.not_mem_nil
  | cons i rest ih =>
    obtain ⟨rfl, tail⟩ := linked.start_eq
    rcases List.mem_cons.mp member with rfl | later
    · exact ⟨rest, Nat.lt_succ_self _, linked⟩
    · obtain ⟨after, short, found⟩ := ih tail later
      exact ⟨after, Nat.lt_succ_of_lt short, found⟩

/-- A queue that ends in the null pointer has no process twice. -/
theorem nodup {queue : List ℕ} {start : Option ℕ} (linked : Linked procs start queue) : queue.Nodup := by
  induction queue generalizing start with
  | nil => exact List.nodup_nil
  | cons i rest ih =>
    obtain ⟨rfl, tail⟩ := linked.start_eq
    refine List.nodup_cons.mpr ⟨fun again => ?_, ih tail⟩
    -- from the second occurrence on it would go through the same processes again
    obtain ⟨after, short, found⟩ := tail.suffix again
    obtain rfl : after = rest := (List.cons.inj (found.unique linked)).2
    exact Nat.lt_irrefl _ short

/-- The walk of `insert_to_ready_queue` ends at the process if it is on the queue. -/
private theorem walk_stays {i p steps : ℕ} {rest : List ℕ} (linked : Linked procs (some i) (i :: rest))
    (member : p ∈ i :: rest) (enough : rest.length < steps) : queueLast procs p steps i = .ok none := by
  cases steps with
  | zero => exact absurd enough (Nat.not_lt_zero _)
  | succ steps =>
    induction rest generalizing i steps with
    | nil =>
      obtain rfl := List.mem_singleton.mp member
      rw [queueLast, if_pos rfl]
    | cons j rest ih =>
      rw [queueLast]
      split
      next => rfl
      next other =>
        obtain ⟨next, _⟩ := linked.2.start_eq
        have later := (List.mem_cons.mp member).resolve_left fun same => other same.symm
        have tail : Linked procs (some j) (j :: rest) := next ▸ linked.2
        rw [next]
        cases steps with
        | zero => exact absurd (Nat.lt_of_succ_lt_succ enough) (Nat.not_lt_zero _)
        | succ steps => exact ih tail later steps (Nat.lt_of_succ_lt_succ enough)

/-- The walk of `insert_to_ready_queue` finds the last element, and a new one is appended there. -/
theorem append {i p : ℕ} {rest : List ℕ} (linked : Linked procs (some i) (i :: rest)) (absent : p ∉ i :: rest) :
    ∃ last ∈ i :: rest, (∀ steps, rest.length < steps → queueLast procs p steps i = .ok (some last)) ∧
      ∀ procs' : ℕ → Process, (∀ j ∈ i :: rest, j ≠ last → (procs' j).queueNext = (procs j).queueNext) →
        (procs' last).queueNext = some p → (procs' p).queueNext = none →
        Linked procs' (some i) (i :: rest ++ [p]) := by
  induction rest generalizing i with
  | nil =>
    have apart : i ≠ p := fun same => absent (same ▸ List.mem_cons_self)
    have next : (procs i).queueNext = none := by
      cases pointer : (procs i).queueNext with
      | none => rfl
      | some j =>
        have tail := linked.2
        rw [pointer] at tail
        exact tail.elim
    refine ⟨i, List.mem_cons_self, fun steps enough => ?_, fun procs' _ link stop => ⟨rfl, ?_⟩⟩
    · cases steps with
      | zero => exact absurd enough (Nat.not_lt_zero _)
      | succ steps => rw [queueLast, if_neg apart, next]
    · rw [link]
      refine ⟨rfl, ?_⟩
      rw [stop]
      exact trivial
  | cons j rest ih =>
    have apart : i ≠ p := fun same => absent (same ▸ List.mem_cons_self)
    obtain ⟨next, _⟩ := linked.2.start_eq
    have tail : Linked procs (some j) (j :: rest) := next ▸ linked.2
    have fresh := (List.nodup_cons.mp linked.nodup).1
    obtain ⟨last, member, walk, link⟩ := ih tail fun inside => absent (List.mem_cons_of_mem _ inside)
    refine ⟨last, List.mem_cons_of_mem _ member, fun steps enough => ?_, fun procs' same tail stop => ⟨rfl, ?_⟩⟩
    · cases steps with
      | zero => exact absurd enough (Nat.not_lt_zero _)
      | succ steps =>
        rw [queueLast, if_neg apart, next]
        exact walk steps (Nat.lt_of_succ_lt_succ enough)
    · rw [same i List.mem_cons_self fun equal => fresh (equal ▸ member), next]
      exact link procs' (fun j' inside => same j' (List.mem_cons_of_mem _ inside)) tail stop

end Linked

/-- What `insert_to_ready_queue` of a process that is not on the queue leaves. -/
structure Enqueued (k : Kernel σ) (queue : List ℕ) (p : ℕ) (k' : Kernel σ) : Prop where
  linked : Linked k'.procs k'.readyQueueHead (queue ++ [p])
  ready : (k'.procs p).status = .READY
  others : ∀ i, i ≠ p → ∃ next, k'.procs i = { k.procs i with queueNext := next }
  rest : k' = { k with procs := k'.procs, readyQueueHead := k'.readyQueueHead }

/-- A process that is not on the queue is appended, whatever its own pointer was. -/
theorem insertWithin_appends {k : Kernel σ} {queue : List ℕ} {p : ℕ}
    (linked : Linked k.procs k.readyQueueHead queue) (absent : p ∉ queue) :
    ∃ k', (∀ steps, queue.length < steps → insertToReadyQueueWithin steps p k = .ok () k') ∧
    Enqueued k queue p k' := by
  cases pointer : k.readyQueueHead with
  | none =>
    rw [pointer] at linked
    cases queue with
    | cons i rest => exact linked.elim
    | nil =>
      let k' : Kernel σ :=
        { k.setProc p fun q => { q with status := .READY, queueNext := none } with readyQueueHead := some p }
      have self : k'.procs p = { k.procs p with status := .READY, queueNext := none } := Function.update_self ..
      refine ⟨k', fun steps _ => ?_, ⟨rfl, ?_⟩, ?_, fun i other => ⟨(k.procs i).queueNext, ?_⟩, rfl⟩
      · rw [insertToReadyQueueWithin, bind_of_ok (get_apply k)]
        simp only [pointer]
        rfl
      · rw [self]
        exact trivial
      · rw [self]
      · exact Function.update_of_ne other _ _
  | some head =>
    rw [pointer] at linked
    cases queue with
    | nil => exact linked.elim
    | cons i rest =>
      obtain rfl := linked.1
      obtain ⟨last, member, walk, link⟩ := linked.append absent
      have apart : p ≠ last := fun same => absent (same ▸ member)
      let tied := k.setProc last fun q => { q with queueNext := some p }
      let k' := tied.setProc p fun q => { q with status := .READY, queueNext := none }
      have self : k'.procs p = { tied.procs p with status := .READY, queueNext := none } :=
        Function.update_self ..
      have atLast : k'.procs last = { k.procs last with queueNext := some p } :=
        (Function.update_of_ne apart.symm _ _).trans (Function.update_self ..)
      have others : ∀ j, j ≠ p → j ≠ last → k'.procs j = k.procs j := fun j notNew notLast =>
        (Function.update_of_ne notNew _ _).trans (Function.update_of_ne notLast _ _)
      refine ⟨k', fun steps enough => ?_, ?_, ?_, fun j other => ?_, rfl⟩
      · rw [insertToReadyQueueWithin, bind_of_ok (get_apply k)]
        simp only [pointer, walk steps (Nat.lt_of_succ_lt enough)]
        rfl
      · have start : k'.readyQueueHead = some head := pointer
        rw [start]
        refine link _ (fun j inside other => ?_) ?_ ?_
        · rw [others j (fun same => absent (same ▸ inside)) other]
        · rw [atLast]
        · rw [self]
      · rw [self]
      · by_cases here : j = last
        · subst here
          exact ⟨_, atLast⟩
        · exact ⟨(k.procs j).queueNext, others j other here⟩

/-- A process that is on the queue stays where it is. -/
theorem insertWithin_stays {k : Kernel σ} {queue : List ℕ} {p steps : ℕ}
    (linked : Linked k.procs k.readyQueueHead queue) (member : p ∈ queue) (enough : queue.length < steps) :
    insertToReadyQueueWithin steps p k = .ok () k := by
  cases queue with
  | nil => exact absurd member List.not_mem_nil
  | cons i rest =>
    obtain ⟨pointer, _⟩ := linked.start_eq
    rw [pointer] at linked
    rw [insertToReadyQueueWithin, bind_of_ok (get_apply k)]
    simp only [pointer, linked.walk_stays member (Nat.lt_of_succ_lt enough)]
    rfl

/-- There are no more processes on a queue than process structures. -/
theorem Linked.length_le {procs : ℕ → Process} {start : Option ℕ} {queue : List ℕ}
    (linked : Linked procs start queue) (bounded : ∀ i ∈ queue, i < NPROC) : queue.length ≤ NPROC := by
  have sub := List.subperm_of_subset linked.nodup fun i inside => List.mem_range.mpr (bounded i inside)
  simpa using sub.length_le

/-- The state in which the process at the front of the queue returns to user mode. -/
def dispatched (k : Kernel σ) (head : ℕ) : Kernel σ :=
  (({ k with current := head, readyQueueHead := (k.procs head).queueNext } : Kernel σ).setProc head fun p =>
    { p with status := .RUNNING }).setProc head fun p => { p with frame :=
    { p.frame with kernelSp := p.kstack } }

/-- `schedule` with a `READY` process at the front of the queue. -/
theorem schedule_dispatches {k : Kernel σ} {head : ℕ} (pointer : k.readyQueueHead = some head)
    (status : (k.procs head).status = .READY) : schedule k = .ok () (dispatched k head) := by
  have check : assert (decide ((k.procs head).status = .READY)) "current->status == READY"
    ({ k with current := head } : Kernel σ) =
      .ok () { k with current := head } := by
    simp [assert, status]
  rw [schedule, bind_of_ok (get_apply k)]
  simp only [pointer]
  rw [bind_of_ok (modify_apply _ _), bind_of_ok (get_apply _), bind_of_ok check]
  rfl

theorem dispatched_proc (k : Kernel σ) (head i : ℕ) :
    ((dispatched k head).procs i).queueNext = (k.procs i).queueNext ∧
      ((dispatched k head).procs i).status = if i = head then .RUNNING else (k.procs i).status := by
  by_cases here : i = head
  · simp [dispatched, Kernel.setProc, here]
  · simp [dispatched, Kernel.setProc, here]

/-- The calls that can follow each other: `s_start` from `init_proc_pool` on, and then traps of the
running process. -/
inductive Phase where
  | off | reset | loaded | user
deriving DecidableEq

inductive SchedOp where
  | initProcPool
  | load (file : HostFile)
  | schedule
  | trap (regs : Regs) (sepc : ℕ) (cause : Cause)

def Phase.next : Phase → SchedOp → Option Phase
  | .off, .initProcPool => some .reset
  | .reset, .load _ => some .loaded
  | .loaded, .schedule => some .user
  | .user, .trap _ _ _ => some .user
  | _, _ => none

def SchedOp.run (env : PageEnv σ) (lay : Layout) : SchedOp → Exec (Kernel σ) Unit
  | .initProcPool => Model.initProcPool
  | .load file => do insertToReadyQueue (← loadUserProgram env lay file)
  | .schedule => Model.schedule
  | .trap regs sepc cause => smodeTrap env lay regs sepc cause

/-- A call that is made in its phase and returns. -/
def SchedStep (env : PageEnv σ) (lay : Layout) (s : Phase × Kernel σ) (op : SchedOp)
    (t : Phase × Kernel σ) : Prop :=
  s.1.next op = some t.1 ∧ op.run env lay s.2 = .ok () t.2

/-- The invariant of the scheduler. In user mode the current process runs, and otherwise none does. -/
structure SchedInv (user : Bool) (k : Kernel σ) : Prop where
  queue : ∃ queue, QueueOk k queue
  unblocked : ∀ i < NPROC, (k.procs i).status ≠ .BLOCKED
  running : ∀ i < NPROC, (k.procs i).status = .RUNNING ↔ user = true ∧ i = k.current
  current : user = true → k.current < NPROC

/-- A stop of `schedule`: the machine is shut down, and no process is left. -/
def ShutsDown (result : EStateM.Result Stop (Kernel σ) Unit) : Prop :=
  ∀ e k, result = .error e k → e = .shutdown 0 ∧ ∀ i < NPROC, (k.procs i).status = .FREE ∨
  (k.procs i).status = .ZOMBIE

namespace SchedInv

variable {user : Bool} {k k' : Kernel σ}

theorem same (inv : SchedInv user k) (same : SameQueue k k') : SchedInv user k' := by
  obtain ⟨queue, ok⟩ := inv.queue
  refine ⟨⟨queue, ?_, ok.nodup, fun i => ?_⟩, fun i bound => ?_, fun i bound => ?_, fun flag => ?_⟩
  · rw [same.head]
    exact ok.linked.congr fun i _ => (same.procs i).2
  · rw [(same.procs i).1]
    exact ok.ready i
  · rw [(same.procs i).1]
    exact inv.unblocked i bound
  · rw [(same.procs i).1, same.current]
    exact inv.running i bound
  · rw [same.current]
    exact inv.current flag

theorem yields (inv : SchedInv user k) {α : Type} {x : Exec (Kernel σ) α} (advances : Advances SameQueue x) :
    Yields x k fun _ k' => SchedInv user k' :=
  ((SameQueue.refl k).yields advances).mono fun _ _ same => inv.same same

/-- `schedule` when no process runs. -/
theorem schedule (inv : SchedInv false k) :
    ShutsDown (Model.schedule k) ∧ ∀ k', Model.schedule k = .ok () k' → SchedInv true k' := by
  obtain ⟨queue, ok⟩ := inv.queue
  have linked := ok.linked
  cases pointer : k.readyQueueHead with
  | none =>
    rw [pointer] at linked
    cases queue with
    | cons i rest => exact linked.elim
    | nil =>
      have idle : ∀ i < NPROC, (k.procs i).status = .FREE ∨ (k.procs i).status = .ZOMBIE := by
        intro i bound
        have ready : (k.procs i).status ≠ .READY :=
          fun status => List.not_mem_nil ((ok.ready i).mpr ⟨bound, status⟩)
        have running : (k.procs i).status ≠ .RUNNING :=
          fun status => absurd ((inv.running i bound).mp status).1 (by decide)
        have blocked := inv.unblocked i bound
        cases status : (k.procs i).status <;> simp_all
      have shutdown : shouldShutdown k.procs = true := by
        simp only [shouldShutdown, List.all_eq_true, List.mem_range, Bool.or_eq_true, decide_eq_true_eq]
        exact idle
      have stops : Model.schedule k = .error (.shutdown 0) k := by
        rw [Model.schedule, bind_of_ok (get_apply k)]
        simp only [pointer]
        rw [bind_of_ok (get_apply k), if_pos shutdown, throw_apply]
      rw [stops]
      refine ⟨fun e k' stop => ?_, fun k' call => ?_⟩
      · obtain ⟨rfl, rfl⟩ := EStateM.Result.error.inj stop
        exact ⟨rfl, idle⟩
      · cases call
  | some head =>
    rw [pointer] at linked
    cases queue with
    | nil => exact linked.elim
    | cons i rest =>
      obtain ⟨rfl, linked⟩ := linked
      obtain ⟨bound, status⟩ := (ok.ready head).mp List.mem_cons_self
      obtain ⟨fresh, nodup⟩ := List.nodup_cons.mp ok.nodup
      have statuses : ∀ i, ((dispatched k head).procs i).status = if i = head then .RUNNING
          else (k.procs i).status :=
        fun i => (dispatched_proc k head i).2
      have current : (dispatched k head).current = head := rfl
      rw [schedule_dispatches pointer status]
      refine ⟨fun e k' stop => (nomatch stop), fun k' result => ?_⟩
      obtain ⟨-, rfl⟩ := EStateM.Result.ok.inj result
      refine ⟨⟨rest, ?_, nodup, fun i => ?_⟩, fun i inside => ?_, fun i inside => ?_, fun _ => ?_⟩
      · exact linked.congr fun i _ => (dispatched_proc k head i).1
      · have member := ok.ready i
        rw [List.mem_cons] at member
        rw [statuses]
        split_ifs with here
        · subst here
          exact ⟨fun inside => absurd inside fresh, fun both => absurd both.2 (by decide)⟩
        · rwa [or_iff_right here] at member
      · rw [statuses]
        split_ifs
        · decide
        · exact inv.unblocked i inside
      · rw [statuses, current]
        split_ifs with here
        · exact ⟨fun _ => ⟨rfl, here⟩, fun _ => rfl⟩
        · refine ⟨fun running => ?_, fun both => absurd both.2 here⟩
          exact absurd ((inv.running i inside).mp running).1 (by decide)
      · rw [current]
        exact bound

/-- The process at index `p` was `FREE` and now is on the queue. -/
private theorem enqueue (inv : SchedInv user k) {p : ℕ} (bound : p < NPROC) (free : (k.procs p).status = .FREE)
    {mid : Kernel σ} (head : mid.readyQueueHead = k.readyQueueHead) (current : mid.current = k.current)
    (next : ∀ i, (mid.procs i).queueNext = (k.procs i).queueNext)
    (others : ∀ i, i ≠ p → (mid.procs i).status = (k.procs i).status) :
    ∃ k', insertToReadyQueue p mid = .ok () k' ∧ SchedInv user k' := by
  obtain ⟨queue, ok⟩ := inv.queue
  have absent : p ∉ queue := by
    intro inside
    have ready := ((ok.ready p).mp inside).2
    rw [free] at ready
    exact absurd ready (by decide)
  have linked : Linked mid.procs mid.readyQueueHead queue := by
    rw [head]
    exact ok.linked.congr fun i _ => next i
  obtain ⟨k', inserts, enqueued⟩ := insertWithin_appends linked absent
  have short := linked.length_le fun i inside => ((ok.ready i).mp inside).1
  have call : insertToReadyQueue p mid = .ok () k' := inserts (NPROC + 1) (by omega)
  have current' : k'.current = mid.current := by rw [enqueued.rest]
  have statuses : ∀ i, (k'.procs i).status = if i = p then .READY else (k.procs i).status := by
    intro i
    split_ifs with here
    · rw [here, enqueued.ready]
    · obtain ⟨_, same⟩ := enqueued.others i here
      rw [same]
      exact others i here
  refine ⟨k', call, ⟨queue ++ [p], enqueued.linked, ?_, fun i => ?_⟩, fun i inside => ?_, fun i inside => ?_,
    fun flag => ?_⟩
  · rw [List.nodup_append]
    refine ⟨ok.nodup, List.nodup_singleton p, fun i inside j last => ?_⟩
    rw [List.mem_singleton] at last
    rintro rfl
    exact absent (last ▸ inside)
  · rw [List.mem_append, List.mem_singleton, ok.ready, statuses]
    split_ifs with here
    · exact ⟨fun _ => ⟨here ▸ bound, rfl⟩, fun _ => Or.inr here⟩
    · exact or_iff_left here
  · rw [statuses]
    split_ifs
    · decide
    · exact inv.unblocked i inside
  · rw [statuses, current', current]
    split_ifs with here
    · have idle := (inv.running i inside).not.mp (by rw [here, free]; decide)
      exact ⟨fun impossible => absurd impossible (by decide), fun both => absurd both idle⟩
    · exact inv.running i inside
  · rw [current', current]
    exact inv.current flag

/-- The same as a step of a program. -/
theorem enqueued (inv : SchedInv user k) {p : ℕ} (bound : p < NPROC) (free : (k.procs p).status = .FREE)
    {mid : Kernel σ} (head : mid.readyQueueHead = k.readyQueueHead) (current : mid.current = k.current)
    (next : ∀ i, (mid.procs i).queueNext = (k.procs i).queueNext)
    (others : ∀ i, i ≠ p → (mid.procs i).status = (k.procs i).status) :
    Yields (insertToReadyQueue p) mid fun _ k' => SchedInv user k' := by
  obtain ⟨k', call, inv'⟩ := inv.enqueue bound free head current next others
  rw [Yields, Ensures, call]
  exact inv'

end SchedInv

/-- What every result of the rest satisfies, every result of a sequence satisfies. -/
private theorem yields_rest {α β : Type} {x : Exec (Kernel σ) α} {f : α → Exec (Kernel σ) β} {k : Kernel σ}
    {post : β → Kernel σ → Prop} (rest : ∀ a t, Yields (f a) t post) : Yields (x >>= f) k post :=
  Ensures.bind (Ensures.of_run fun _ _ _ => trivial : Yields x k fun _ _ => True) fun a t _ => rest a t

/-- `alloc_process` returns the first `FREE` process structure. -/
theorem allocProcess_free (env : PageEnv σ) (lay : Layout) (k : Kernel σ) :
    Yields (allocProcess env lay) k fun i k' => freeProcess? k.procs = some i ∧ SameQueue k k' := by
  have found : Yields (allocProcess env lay) k fun i _ => freeProcess? k.procs = some i := by
    refine Ensures.step (get_apply k) ?_
    cases freeProcess? k.procs with
    | none => exact Ensures.throw trivial
    | some i =>
      dsimp only
      repeat refine yields_rest fun _ _ => ?_
      exact Ensures.pure rfl
  refine Ensures.of_run fun i k' call => ⟨found.of_ok call, ?_⟩
  have advances : Advances SameQueue (allocProcess env lay) := (calm_sameQueue env).allocProcess
  have same := advances k
  rw [call] at same
  exact same

namespace SchedInv

variable {user : Bool} {k : Kernel σ}

/-- `load_user_program` and `insert_to_ready_queue` of its result. -/
theorem load (inv : SchedInv user k) (file : HostFile) :
    Yields (do insertToReadyQueue (← loadUserProgram env lay file)) k fun _ k' => SchedInv user k' := by
  have loaded : Yields (loadUserProgram env lay file) k fun p k' => freeProcess? k.procs = some p ∧
    SameQueue k k' := by
    refine Ensures.bind (allocProcess_free env lay k) fun p k₁ spawned => ?_
    refine Ensures.bind (spawned.2.yields ((calm_sameQueue env).loadBincodeFromHostElf p file))
      fun _ k₂ same => ?_
    exact Ensures.pure ⟨spawned.1, same⟩
  refine Ensures.bind loaded fun p k₁ spawned => ?_
  obtain ⟨found, same⟩ := spawned
  obtain ⟨bound, free⟩ := freeProcess?_some found
  exact inv.enqueued bound free same.head same.current (fun i => (same.procs i).2) fun i _ => (same.procs i).1

/-- `do_fork` puts the child on the queue. -/
theorem doFork (inv : SchedInv user k) (parent : ℕ) :
    Yields (Model.doFork env lay parent) k fun _ k' => SchedInv user k' := by
  refine Ensures.bind (allocProcess_free env lay k) fun p k₁ spawned => ?_
  obtain ⟨found, same₁⟩ := spawned
  obtain ⟨bound, free⟩ := freeProcess?_some found
  refine Ensures.step (get_apply k₁) ?_
  have copies := (calm_sameQueue env).forM_range ((calm_sameQueue env).forkRegion parent p)
    (k₁.procs parent).totalMappedRegion
  refine Ensures.bind (same₁.yields copies) fun _ k₂ same₂ => ?_
  refine Ensures.step (modify_apply _ _) (Ensures.step (modify_apply _ _) ?_)
  refine Ensures.bind (inv.enqueued bound free same₂.head same₂.current (fun i => ?_) fun i other =>
    ?_) fun _ k₃ inv₃ => ?_
  · by_cases here : i = p
    · subst here
      rw [Kernel.setProc_procs_self, Kernel.setProc_procs_self]
      exact (same₂.procs i).2
    · rw [Kernel.setProc_procs_of_ne _ _ _ here, Kernel.setProc_procs_of_ne _ _ _ here]
      exact (same₂.procs i).2
  · rw [Kernel.setProc_procs_of_ne _ _ _ other, Kernel.setProc_procs_of_ne _ _ _ other]
    exact (same₂.procs i).1
  · exact Ensures.step (modify_apply _ _) (Ensures.pure (inv₃.same (Untouched.record _).sameQueue))

/-- A system call other than `sys_user_exit`. -/
theorem doSyscall (inv : SchedInv user k) {a0 : ℕ} (a1 : ℕ) (stays : a0 ≠ SYS_user_exit) :
    Yields (Model.doSyscall env lay a0 a1) k fun _ k' => SchedInv user k' := by
  have calm := calm_sameQueue env
  rw [Model.doSyscall, if_neg stays]
  split_ifs
  · exact inv.yields (calm.sysUserPrint a1)
  · exact inv.yields calm.sysUserAllocatePage
  · exact inv.yields (calm.bind (calm.sysUserFreePage a1) fun _ => calm.pure 0)
  · refine Ensures.step (get_apply k) (Ensures.bind (inv.doFork _) fun child k' inv' => ?_)
    exact Ensures.step (get_apply k') (Ensures.pure inv')
  · exact Ensures.throw trivial
  · exact Ensures.pure inv
  · exact inv.yields (calm.sysUserPrintpa a1)
  · exact Ensures.throw trivial

/-- A trap that is no call of `sys_user_exit`. -/
theorem smodeTrapHandler (inv : SchedInv user k) (cause : Cause)
    (stays : cause = .ecall → (k.procs k.current).frame.regs .a0 ≠ SYS_user_exit) :
    Yields (Model.smodeTrapHandler env lay cause) k fun _ k' => SchedInv user k' := by
  have calm := calm_sameQueue env
  cases cause with
  | ecall =>
    have advanced : ((k.setFrame fun frame => { frame with epc := (frame.epc + 4) % WORD }).procs
      k.current).frame.regs =
        (k.procs k.current).frame.regs := by
      simp [Kernel.setFrame]
    refine Ensures.step (get_apply k) (Ensures.step (modify_apply _ _) (Ensures.step (get_apply _) ?_))
    dsimp only
    rw [advanced]
    have inv₁ := inv.same (Untouched.setFrame k fun frame =>
      { frame with epc := (frame.epc + 4) % WORD }).sameQueue
    refine Ensures.bind (inv₁.doSyscall _ (stays rfl)) fun _ k₂ inv₂ => ?_
    exact inv₂.yields (calm.update fun _ => .setProc fun _ => ⟨rfl, rfl⟩)
  | timer => exact Ensures.throw trivial
  | storePageFault stval => exact inv.yields (calm.handleUserPageFault _ _)
  | loadPageFault stval => exact inv.yields (calm.handleUserPageFault _ _)
  | other => exact Ensures.throw trivial

/-- After `free_process(current)` no process runs. -/
private theorem exits (inv : SchedInv true k) :
    SchedInv false (k.setProc k.current fun p => { p with status := .ZOMBIE }) := by
  obtain ⟨queue, ok⟩ := inv.queue
  have bound := inv.current rfl
  have running := (inv.running k.current bound).mpr ⟨rfl, rfl⟩
  have statuses : ∀ i, ((k.setProc k.current fun p => { p with status := .ZOMBIE }).procs i).status =
      if i = k.current then .ZOMBIE else (k.procs i).status := by
    intro i
    split_ifs with here
    · rw [here, Kernel.setProc_procs_self]
    · rw [Kernel.setProc_procs_of_ne _ _ _ here]
  have next : ∀ i, ((k.setProc k.current fun p => { p with status := .ZOMBIE }).procs i).queueNext =
    (k.procs i).queueNext := by
    intro i
    by_cases here : i = k.current
    · rw [here, Kernel.setProc_procs_self]
    · rw [Kernel.setProc_procs_of_ne _ _ _ here]
  refine ⟨⟨queue, ok.linked.congr fun i _ => next i, ok.nodup, fun i => ?_⟩, fun i inside => ?_,
    fun i inside => ?_, fun flag => ?_⟩
  · rw [ok.ready, statuses]
    split_ifs with here
    · rw [here, running]
      simp
    · rfl
  · rw [statuses]
    split_ifs
    · decide
    · exact inv.unblocked i inside
  · rw [statuses]
    split_ifs with here
    · simp
    · refine ⟨fun other => ?_, fun both => absurd both.1 (by decide)⟩
      exact absurd ((inv.running i inside).mp other).2 here
  · cases flag

/-- A trap from user mode: the process that runs afterwards is the current one, and `sys_user_exit`
stops only if no process is left. -/
theorem trap (inv : SchedInv true k) (regs : Regs) (sepc : ℕ) (cause : Cause) :
    Yields ((SchedOp.trap regs sepc cause).run env lay) k (fun _ k' => SchedInv true k') ∧
      (cause = .ecall → regs .a0 = SYS_user_exit →
        ShutsDown ((SchedOp.trap regs sepc cause).run env lay k)) := by
  have saved := inv.same (sameQueue_entered k regs sepc)
  have number : ((k.entered regs sepc).procs (k.entered regs sepc).current).frame.regs .a0 = regs .a0 := by
    change (Function.update k.procs k.current _ k.current).frame.regs .a0 = _
    rw [Function.update_self]
    rfl
  rw [Yields, Ensures, SchedOp.run, smodeTrap, bind_of_ok (modify_apply _ _), userTrap,
    bind_of_ok (get_apply _), number]
  generalize k.entered regs sepc = k₁ at saved number
  by_cases leaves : cause = .ecall ∧ regs .a0 = SYS_user_exit
  · have advanced := saved.same (Untouched.setFrame k₁ fun frame =>
      { frame with epc := (frame.epc + 4) % WORD }).sameQueue
    obtain ⟨stops, dispatches⟩ := advanced.exits.schedule
    rw [if_pos leaves, bind_of_ok (modify_apply _ _), bind_of_ok (show sysUserExit _ = .ok 0 _ from rfl)]
    refine ⟨?_, fun _ _ => stops⟩
    exact Ensures.of_run fun _ k' call => dispatches k' call
  · rw [if_neg leaves]
    refine ⟨?_, fun ecall exit => absurd ⟨ecall, exit⟩ leaves⟩
    refine Ensures.bind (saved.smodeTrapHandler cause fun ecall exit => leaves ⟨ecall, number ▸ exit⟩)
      fun _ k₂ inv₂ => ?_
    obtain ⟨k₃, back, same⟩ := sameQueue_switchTo k₂
    refine Ensures.step (get_apply k₂) ?_
    rw [Ensures, back]
    exact inv₂.same same

end SchedInv

/-- What holds in each phase. -/
def SchedGood : Phase × Kernel σ → Prop
  | (.off, k) => k.readyQueueHead = none
  | (.user, k) => SchedInv true k
  | (_, k) => SchedInv false k

/-- `init_proc_pool` with an empty queue. -/
private theorem initProcPool_inv {k k' : Kernel σ} (empty : k.readyQueueHead = none)
    (call : initProcPool k = .ok () k') :
    SchedInv false k' := by
  obtain ⟨-, rfl⟩ := EStateM.Result.ok.inj call
  have free : ∀ i < NPROC, (if i < NPROC then { zeroProcess with pid := i } else k.procs i).status = .FREE :=
    fun i bound => by
    rw [if_pos bound]
    rfl
  refine ⟨⟨[], ?_, List.nodup_nil, fun i => ?_⟩, fun i bound => ?_, fun i bound => ?_, fun flag => ?_⟩
  · change Linked _ k.readyQueueHead []
    rw [empty]
    exact trivial
  · refine ⟨fun inside => absurd inside List.not_mem_nil, fun both => ?_⟩
    exact absurd ((free i both.1).symm.trans both.2) (by decide)
  · change (if i < NPROC then { zeroProcess with pid := i } else k.procs i).status ≠ _
    rw [free i bound]
    decide
  · change (if i < NPROC then { zeroProcess with pid := i } else k.procs i).status = _ ↔ _
    rw [free i bound]
    simp
  · cases flag

private theorem schedGood_step {s t : Phase × Kernel σ} {op : SchedOp} (good : SchedGood s)
    (step : SchedStep env lay s op t) : SchedGood t := by
  obtain ⟨phase, k⟩ := s
  obtain ⟨phase', k'⟩ := t
  obtain ⟨order, call⟩ := step
  cases op with
  | initProcPool =>
    cases phase <;> cases order
    exact initProcPool_inv good call
  | load file =>
    cases phase <;> cases order
    exact (SchedInv.load good file).of_ok call
  | schedule =>
    cases phase <;> cases order
    exact (SchedInv.schedule good).2 k' call
  | trap regs sepc cause =>
    cases phase <;> cases order
    exact (SchedInv.trap good regs sepc cause).1.of_ok call

/-- In every run of the kernel the ready queue is a list of the `READY` processes, in user mode
exactly the current process runs, and `schedule` stops only to shut the machine down when no process
is left. -/
theorem scheduler_safe {k₀ : Kernel σ} (empty : k₀.readyQueueHead = none) {ops : List SchedOp} {phase : Phase}
    {k : Kernel σ} (run : Run (SchedStep env lay) (.off, k₀) ops (phase, k)) :
    (phase ≠ .off → ∃ queue, QueueOk k queue) ∧
      (phase = .user → k.current < NPROC ∧ ∀ i < NPROC, (k.procs i).status = .RUNNING ↔ i = k.current) ∧
      (phase = .loaded → ShutsDown (SchedOp.schedule.run env lay k)) ∧
      (phase = .user → ∀ regs sepc, regs .a0 = SYS_user_exit →
        ShutsDown ((SchedOp.trap regs sepc .ecall).run env lay k)) := by
  have good : SchedGood (phase, k) := run.invariant (fun _ _ _ good step => schedGood_step good step) empty
  refine ⟨fun started => ?_, ?_, ?_, ?_⟩
  · cases phase with
    | off => exact absurd rfl started
    | reset => exact SchedInv.queue good
    | loaded => exact SchedInv.queue good
    | user => exact SchedInv.queue good
  · rintro rfl
    refine ⟨SchedInv.current good rfl, fun i bound => (SchedInv.running good i bound).trans ?_⟩
    simp
  · rintro rfl
    exact (SchedInv.schedule good).1
  · rintro rfl regs sepc exit
    exact (SchedInv.trap good regs sepc .ecall).2 rfl exit

/-- One call by evaluation. -/
def SchedOp.next (env : PageEnv σ) (lay : Layout) (s : Phase × Kernel σ) (op : SchedOp) :
    Option (Phase × Kernel σ) :=
  (s.1.next op).bind fun phase =>
    match op.run env lay s.2 with
    | .ok _ k => some (phase, k)
    | .error _ _ => none

private theorem SchedOp.next_step (s : Phase × Kernel σ) (op : SchedOp) (t : Phase × Kernel σ)
    (found : SchedOp.next env lay s op = some t) : SchedStep env lay s op t := by
  obtain ⟨phase, order, rest⟩ := Option.bind_eq_some_iff.mp found
  split at rest
  · rename_i k call
    obtain rfl := Option.some.inj rest
    exact ⟨order, call⟩
  · cases rest

/-- A program forks, and the parent exits. -/
theorem scheduler_safe_small :
    ∃ k, Run (SchedStep counterEnv smallLayout) (.off, counterKernel)
      [.initProcPool, .load smallProgram, .schedule, .trap (request SYS_user_fork 0) 0 .ecall,
        .trap (request SYS_user_exit 0) 0 .ecall] (.user, k) ∧
      k.current = 1 ∧ (k.procs 0).status = .ZOMBIE ∧ (∃ queue, QueueOk k queue) ∧
      ∀ i < NPROC, (k.procs i).status = .RUNNING ↔ i = 1 := by
  have checked : (evalRun (SchedOp.next counterEnv smallLayout) (.off, counterKernel)
      [.initProcPool, .load smallProgram, .schedule, .trap (request SYS_user_fork 0) 0 .ecall,
        .trap (request SYS_user_exit 0) 0 .ecall]).any
      (fun s => decide (s.1 = .user ∧ s.2.current = 1 ∧ (s.2.procs 0).status = .ZOMBIE)) = true := by
    decide +kernel
  obtain ⟨⟨phase, k⟩, run, check⟩ := Run.of_eval SchedOp.next_step checked
  obtain ⟨rfl, current, zombie⟩ := of_decide_eq_true check
  obtain ⟨queue, running, _, _⟩ := scheduler_safe rfl run
  refine ⟨k, run, current, zombie, queue (by decide), ?_⟩
  rw [← current]
  exact (running rfl).2

end Pke.Proofs
