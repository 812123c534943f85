import Pke.Lib.Fifo
import Pke.Proofs.Scheduling

/-! # The ready queue is a queue without duplicates

From `ready_queue_head` the pointers lead through the processes of the queue, in their order.
`insert_to_ready_queue` and `schedule` refine the insertion and the dispatch of a queue in which no
element waits twice, so in every sequence of calls the processes are dispatched in the order in
which they joined.
-/

namespace Pke.Proofs

open Pke.Lib Pke.Model

variable {σ : Type}

/-- `insert_to_ready_queue` returns: its walk comes to an end. -/
def Inserts (p : ℕ) (k k' : Kernel σ) : Prop :=
  ∃ bound, ∀ steps, bound ≤ steps → insertToReadyQueueWithin steps p k = .ok () k'

/-- A call that returns. -/
inductive QueueStep : Kernel σ → FifoOp ℕ → Kernel σ → Prop
  | insert {k k' : Kernel σ} {p : ℕ} (call : Inserts p k k') : QueueStep k (.insert p) k'
  | dispatch {k k' : Kernel σ} (call : schedule k = .ok () k') : QueueStep k (.dispatch k'.current) k'

/-- What `schedule` leaves if `head` was at the front of the queue and `rest` behind it. -/
structure Dispatched (k : Kernel σ) (head : ℕ) (rest : List ℕ) (k' : Kernel σ) : Prop where
  linked : Linked k'.procs k'.readyQueueHead rest
  current : k'.current = head
  running : (k'.procs head).status = .RUNNING
  others : ∀ i, i ≠ head → k'.procs i = k.procs i

theorem Inserts.unique {k k₁ k₂ : Kernel σ} {p : ℕ} (first : Inserts p k k₁)
    (second : Inserts p k k₂) : k₁ = k₂ := by
  obtain ⟨bound, first⟩ := first
  obtain ⟨bound', second⟩ := second
  have same := (first (max bound bound') (le_max_left _ _)).symm.trans
    (second (max bound bound') (le_max_right _ _))
  injection same

section

variable {k k' : Kernel σ} {queue : List ℕ} {p : ℕ}

/-- An insertion returns on a queue of any length. -/
theorem inserts_of_linked (linked : Linked k.procs k.readyQueueHead queue) (p : ℕ) :
    ∃ k', Inserts p k k' ∧ ((∀ i ∈ queue, i < NPROC) → insertToReadyQueue p k = .ok () k') ∧
      (p ∈ queue → k' = k) ∧ (p ∉ queue → Enqueued k queue p k') := by
  have bounded : (∀ i ∈ queue, i < NPROC) → queue.length < NPROC + 1 := fun bounds =>
    Nat.lt_succ_of_le (linked.length_le bounds)
  by_cases member : p ∈ queue
  · have stays := fun steps (enough : queue.length < steps) => insertWithin_stays linked member enough
    exact ⟨k, ⟨queue.length + 1, stays⟩, fun bounds => stays _ (bounded bounds), fun _ => rfl,
      fun absent => absurd member absent⟩
  · obtain ⟨k', inserts, enqueued⟩ := insertWithin_appends linked member
    exact ⟨k', ⟨queue.length + 1, inserts⟩, fun bounds => inserts _ (bounded bounds),
      fun inside => absurd inside member, fun _ => enqueued⟩

private theorem schedule_dispatched {head : ℕ} {rest : List ℕ}
    (linked : Linked k.procs k.readyQueueHead (head :: rest)) :
    Dispatched k head rest (dispatched k head) := by
  obtain ⟨_, tail⟩ := linked.start_eq
  refine ⟨tail.congr fun i _ => (dispatched_proc k head i).1, rfl, ?_, fun i other => ?_⟩
  · rw [(dispatched_proc k head head).2, if_pos rfl]
  · rw [dispatched, Kernel.setProc_procs_of_ne _ _ _ other, Kernel.setProc_procs_of_ne _ _ _ other]

/-- The assertion of `schedule` about the process at the front. -/
theorem schedule_asserts {head : ℕ} (pointer : k.readyQueueHead = some head)
    (status : (k.procs head).status ≠ .READY) :
    schedule k = .error (.assertFailed "current->status == READY") { k with current := head } := by
  have check : assert (decide ((k.procs head).status = .READY)) "current->status == READY"
    ({ k with current := head } : Kernel σ) =
      .error (.assertFailed "current->status == READY") { k with current := head } := by
    simp [assert, status]
  rw [schedule, bind_of_ok (get_apply k)]
  simp only [pointer]
  rw [bind_of_ok (modify_apply _ _), bind_of_ok (get_apply _), bind_of_error check, pointer]

/-- `schedule` returns only with the process at the front of the queue. -/
private theorem schedule_eq_ok (call : schedule k = .ok () k') :
    ∃ head, k.readyQueueHead = some head ∧ (k.procs head).status = .READY ∧ k' = dispatched k head := by
  cases pointer : k.readyQueueHead with
  | none =>
    rw [schedule, bind_of_ok (get_apply k)] at call
    simp only [pointer] at call
    rw [bind_of_ok (get_apply k)] at call
    split at call
    · cases call
    · cases call
  | some head =>
    by_cases status : (k.procs head).status = .READY
    · rw [schedule_dispatches pointer status] at call
      injection call with _ same
      exact ⟨head, rfl, status, same.symm⟩
    · rw [schedule_asserts pointer status] at call
      cases call

/-- Each call is an operation of the queue, and a queue of `READY` processes stays one. -/
theorem QueueStep.simulates {op : FifoOp ℕ} (step : QueueStep k op k')
    (linked : Linked k.procs k.readyQueueHead queue) :
    ∃ queue', FifoStep queue op queue' ∧ Linked k'.procs k'.readyQueueHead queue' ∧
      ((∀ i ∈ queue, (k.procs i).status = .READY) → ∀ i ∈ queue', (k'.procs i).status = .READY) := by
  cases step with
  | @insert _ p call =>
    obtain ⟨k₁, inserts, _, present, absent⟩ := inserts_of_linked linked p
    obtain rfl := call.unique inserts
    by_cases member : p ∈ queue
    · obtain rfl := present member
      exact ⟨queue, .stay member, linked, fun ready => ready⟩
    · have enqueued := absent member
      refine ⟨queue ++ [p], .join member, enqueued.linked, fun ready i inside => ?_⟩
      by_cases here : i = p
      · rw [here]
        exact enqueued.ready
      · have old := (List.mem_append.mp inside).resolve_right fun last => here (List.mem_singleton.mp last)
        obtain ⟨_, same⟩ := enqueued.others i here
        rw [same]
        exact ready i old
  | dispatch call =>
    obtain ⟨head, pointer, status, rfl⟩ := schedule_eq_ok call
    cases queue with
    | nil =>
      rw [pointer] at linked
      exact linked.elim
    | cons first rest =>
      obtain rfl : head = first := Option.some.inj (pointer.symm.trans linked.start_eq.1)
      have next := schedule_dispatched linked
      refine ⟨rest, .leave, next.linked, fun ready i inside => ?_⟩
      have other : i ≠ head := fun same => (List.nodup_cons.mp linked.nodup).1 (same ▸ inside)
      rw [next.others i other]
      exact ready i (List.mem_cons_of_mem _ inside)

/-- Every run of calls is one of the queue. -/
private theorem queue_refines {ops : List (FifoOp ℕ)} (run : Run QueueStep k ops k')
    (linked : Linked k.procs k.readyQueueHead queue) :
    ∃ queue', Run FifoStep queue ops queue' ∧ Linked k'.procs k'.readyQueueHead queue' ∧
      ((∀ i ∈ queue, (k.procs i).status = .READY) → ∀ i ∈ queue', (k'.procs i).status = .READY) := by
  have match_step : ∀ (mid : Kernel σ) op mid' waiting, (Linked mid.procs mid.readyQueueHead waiting ∧
      ((∀ i ∈ queue, (k.procs i).status = .READY) → ∀ i ∈ waiting, (mid.procs i).status = .READY)) →
      QueueStep mid op mid' → ∃ waiting', FifoStep waiting op waiting' ∧
      (Linked mid'.procs mid'.readyQueueHead waiting' ∧
      ((∀ i ∈ queue, (k.procs i).status = .READY) → ∀ i ∈ waiting', (mid'.procs i).status = .READY)) := by
    rintro mid op mid' waiting ⟨linked, ready⟩ step
    obtain ⟨waiting', fifo, linked', keeps⟩ := step.simulates linked
    exact ⟨waiting', fifo, linked', fun all => keeps (ready all)⟩
  exact run.simulates match_step ⟨linked, fun ready => ready⟩

end

/-- On a queue of any length an insertion returns, and changes the queue only if the process is not
on it; `schedule` takes the first process, and its assertion fails only if that one is not `READY`;
in every sequence of calls the processes leave in the order in which they joined. -/
theorem ready_queue_fifo {k : Kernel σ} {queue : List ℕ} (linked : Linked k.procs k.readyQueueHead queue) :
    (∀ p, ∃ k', Inserts p k k' ∧ ((∀ i ∈ queue, i < NPROC) → insertToReadyQueue p k = .ok () k') ∧
      (p ∈ queue → k' = k) ∧ (p ∉ queue → Enqueued k queue p k')) ∧
    (∀ head rest, queue = head :: rest →
      ((k.procs head).status = .READY → ∃ k', schedule k = .ok () k' ∧ Dispatched k head rest k') ∧
      ((k.procs head).status ≠ .READY →
        ∃ k', schedule k = .error (.assertFailed "current->status == READY") k')) ∧
    ∀ ops k', Run QueueStep k ops k' → ∃ queue', Linked k'.procs k'.readyQueueHead queue' ∧
      queue ++ arrivals queue.toFinset ops = dispatches ops ++ queue' ∧
      ((∀ i ∈ queue, (k.procs i).status = .READY) → ∀ i ∈ queue', (k'.procs i).status = .READY) := by
  refine ⟨fun p => inserts_of_linked linked p, ?_, fun ops k' run => ?_⟩
  · rintro head rest rfl
    obtain ⟨pointer, _⟩ := linked.start_eq
    refine ⟨fun status => ⟨_, schedule_dispatches pointer status, schedule_dispatched linked⟩, fun status => ?_⟩
    exact ⟨_, schedule_asserts pointer status⟩
  · obtain ⟨queue', fifo, linked', ready⟩ := queue_refines run linked
    exact ⟨queue', linked', fifo.fifo linked.nodup, ready⟩

/-- A kernel with two processes on the queue; all others point to the front. -/
def pairKernel : Kernel ℕ :=
  { counterKernel with
    procs := fun i => { zeroProcess with
      status := if i < 2 then .READY else .FREE
      queueNext := if i = 0 then some 1 else if i = 1 then none else some 0 }
    readyQueueHead := some 0 }

theorem ready_queue_fifo_pair :
    (∃ k', insertToReadyQueue 5 pairKernel = .ok () k' ∧ Enqueued pairKernel [0, 1] 5 k') ∧
    (∃ k', schedule pairKernel = .ok () k' ∧ Dispatched pairKernel 0 [1] k') := by
  have linked : Linked pairKernel.procs pairKernel.readyQueueHead [0, 1] := ⟨rfl, rfl, trivial⟩
  obtain ⟨inserts, schedules, _⟩ := ready_queue_fifo linked
  constructor
  · obtain ⟨k', _, pool, _, absent⟩ := inserts 5
    exact ⟨k', pool (by decide), absent (by decide)⟩
  · exact (schedules 0 [1] rfl).1 rfl

end Pke.Proofs
