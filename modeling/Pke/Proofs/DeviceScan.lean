import Pke.Lib.Exec
import Pke.Proofs.DeviceTree

/-! # The scan of a flattened device tree

On a memory that holds a tree the scan makes the calls of a walk over the tree in document order,
and it stops exactly at a property behind a child of the same node. If there is none, it goes node
by node. Every node starts with the cells that its elder sibling had at its end, so the cells are
those of the specification exactly if no node leaves others to a younger sibling.
-/

namespace Pke.Proofs

open Pke.Lib Pke.Model

/-- A call that the scan makes; the last one is the failing assertion at a property behind a child. -/
inductive Call where
  | opens (node : NodePtr)
  | prop (prop : FdtScanProp)
  | done (node : NodePtr)
  | misplaced
deriving DecidableEq, Repr

section Calls

variable {σ : Type} {cb : FdtCb σ} {m : Bytes} {strings : ℕ}

def Call.perform (cb : FdtCb σ) : Call → Bounded (Scanning σ) Unit
  | opens node => callIf cb.cbOpen node
  | prop p => callback fun m => cb.cbProp m p
  | done node => callIf cb.cbDone node
  | misplaced => requires false "!last"

/-- The calls one after the other. -/
def runCalls (cb : FdtCb σ) : List Call → Bounded (Scanning σ) Unit
  | [] => pure ()
  | call :: calls => call.perform cb >>= fun _ => runCalls cb calls

theorem runCalls_append (first second : List Call) :
    runCalls cb (first ++ second) = runCalls cb first >>= fun _ => runCalls cb second := by
  induction first with
  | nil => simp [runCalls]
  | cons call first ih => simp only [List.cons_append, runCalls, ih, bind_assoc]

/-- `done` is called before the first child and, without a child, at the end. -/
def doneCall (last : Bool) (node : NodePtr) : List Call := if !last && !node.isEmpty then [.done node] else []

namespace DtBody

/-- The node after the body: the last properties that set cells stand. -/
def after (m : Bytes) (strings : ℕ) : DtBody → ℕ → NodePtr → NodePtr
  | stop, _, chain => chain
  | nop rest, lex, chain => rest.after m strings (lex + 4) chain
  | prop name value rest, lex, chain =>
    rest.after m strings (lex + 4 * (3 + (value.length + 3) / 4)) (setCells m (ptrAdd strings name) lex chain)
  | node name children rest, lex, chain =>
    rest.after m strings (lex + 4 * (2 + name.length / 4 + children.size + 1)) chain

/-- The calls of a walk over the body in document order. A child starts with the cells that its
elder sibling had at its end, and the first child with the defaults. -/
def calls (m : Bytes) (strings : ℕ) : DtBody → ℕ → Bool → FdtScanNode → NodePtr → List Call
  | stop, _, last, _, chain => doneCall last chain
  | nop rest, lex, last, child, chain => rest.calls m strings (lex + 4) last child chain
  | prop name value rest, lex, last, child, chain =>
    if last then [.misplaced]
    else
      let chain := setCells m (ptrAdd strings name) lex chain
      .prop ⟨chain, ptrAdd strings name, lex + 12, value.length⟩ ::
        rest.calls m strings (lex + 4 * (3 + (value.length + 3) / 4)) last child chain
  | node name children rest, lex, last, child, chain =>
    let child := { child with name := lex + 4 }
    let inside := lex + 4 * (2 + name.length / 4)
    let behind := lex + 4 * (2 + name.length / 4 + children.size + 1)
    doneCall last chain ++ .opens (child :: chain) :: children.calls m strings inside false .fresh
    (child :: chain) ++
      rest.calls m strings behind true ((children.after m strings inside (child :: chain)).headD child) chain

end DtBody

/-- A call of this kind leaves memory as it is. -/
def KeepsMem {α : Type} (x : Bounded (Scanning σ) α) : Prop := ∀ s a t, x s = .ok a t → t.mem = s.mem

namespace KeepsMem

variable {α β : Type} {x : Bounded (Scanning σ) α} {f g : α → Bounded (Scanning σ) β}

theorem callback (f : Bytes → Bounded σ α) : KeepsMem (callback f) := by
  intro s a t run
  unfold Model.callback at run
  split at run
  · cases run
    rfl
  · cases run

theorem pure (a : α) : KeepsMem (Pure.pure a : Bounded (Scanning σ) α) := by
  intro s _ t run
  cases run
  rfl

theorem callIf (f : Option (Bytes → NodePtr → Bounded σ Unit)) (node : NodePtr) : KeepsMem (callIf f node) := by
  cases f with
  | none => exact pure ()
  | some f => exact callback fun m => f m node

theorem bind (first : KeepsMem x) (second : ∀ a, KeepsMem (f a)) : KeepsMem (x >>= f) := by
  intro s b t run
  obtain ⟨a, mid, head, tail⟩ := bind_eq_ok.mp run
  exact (second a mid b t tail).trans (first s a mid head)

theorem perform (call : Call) : KeepsMem (call.perform cb) := by
  cases call with
  | opens node => exact callIf _ _
  | prop p => exact callback fun m => cb.cbProp m p
  | done node => exact callIf _ _
  | misplaced => exact fun _ _ _ run => by cases run

theorem runCalls (calls : List Call) : KeepsMem (runCalls cb calls) := by
  induction calls with
  | nil => exact pure ()
  | cons call calls ih => exact bind (perform call) fun _ => ih

/-- After such a call two continuations that agree on this memory do the same. -/
theorem bind_congr (keeps : KeepsMem x) {s : Scanning σ} (same : ∀ a t, t.mem = s.mem → f a t = g a t) :
    (x >>= f) s = (x >>= g) s := by
  rw [bind_apply, bind_apply]
  cases run : x s with
  | ok a t => exact same a t (keeps s a t run)
  | error e t => rfl

end KeepsMem

/-- Where the scan goes on behind a body. -/
def behindBody (m : Bytes) (p : ℕ) : ℕ := if token m p = FDT_END_NODE then p + 4 else p

theorem ptrAdd_words {p n : ℕ} (inside : p + 4 * n < WORD) : ptrAdd p (4 * n) = p + 4 * n := by
  have := ptrAdd_eq (p := p) (n := 4 * n) inside
  rwa [Nat.cast_mul] at this

private theorem behindProp_eq {lex len : ℕ} (short : len + 3 < 2 ^ 31)
    (inside : lex + 4 * (3 + (len + 3) / 4) < WORD) :
    behindProp lex len = lex + 4 * (3 + (len + 3) / 4) := by
  have words : (((len : ℤ) + 3).bmod (2 ^ 32)).tdiv 4 = ((len + 3) / 4 : ℕ) := by
    rw [Int.bmod_eq_of_le (by omega) (by omega)]
    exact_mod_cast Int.ofNat_tdiv (len + 3) 4
  rw [behindProp, words]
  exact_mod_cast ptrAdd_words inside

section Tokens

variable {bound lex : ℕ} {last : Bool} {child : FdtScanNode} {chain : NodePtr} {s : Scanning σ}

private theorem fdtScanHelper_nop (first : token s.mem lex = FDT_NOP) :
    fdtScanHelper cb strings (bound + 1) last child chain lex s =
    fdtScanHelper cb strings bound last child chain (ptrAdd lex 4) s := by
  rw [fdtScanHelper, bind_apply, get_apply]
  simp only [first, if_pos]

private theorem fdtScanHelper_prop (first : token s.mem lex = FDT_PROP) :
    fdtScanHelper cb strings (bound + 1) last child chain lex s =
      (let name := ptrAdd strings (token s.mem (lex + 8)).toNat
       let len := (token s.mem (lex + 4)).toInt
       let chain := setCells s.mem name lex chain
       requires (!last) "!last" >>= fun _ =>
         callback (fun m => cb.cbProp m ⟨chain, name, ptrAdd lex 12, len⟩) >>= fun _ =>
           fdtScanHelper cb strings bound last child chain (behindProp lex len)) s := by
  have other : FDT_PROP ≠ FDT_NOP := by decide
  rw [fdtScanHelper, bind_apply, get_apply]
  simp only [first, if_neg other, if_pos]

/-- At a child, for a table without a `close` callback. -/
private theorem fdtScanHelper_node (keeps : cb.cbClose = none) (first : token s.mem lex = FDT_BEGIN_NODE) :
    fdtScanHelper cb strings (bound + 1) last child chain lex s =
      (let child := { child with name := ptrAdd lex 4 }
       runCalls cb (doneCall last chain) >>= fun _ =>
         callIf cb.cbOpen (child :: chain) >>= fun _ =>
           within (strlen bound fun i => s.mem (child.name + i)) >>= fun length =>
             fdtScanHelper cb strings bound false .fresh (child :: chain)
             (ptrAdd lex (4 * (2 + length / 4))) >>= fun r =>
               fdtScanHelper cb strings bound true (r.2.headD child) chain r.1) s := by
  have other : FDT_BEGIN_NODE ≠ FDT_NOP ∧ FDT_BEGIN_NODE ≠ FDT_PROP := by decide
  rw [fdtScanHelper, bind_apply, get_apply]
  simp only [first, if_neg other.1, if_neg other.2, if_pos, keeps]
  rw [doneCall]
  split_ifs
  · simp [runCalls, Call.perform]
  · rfl

private theorem fdtScanHelper_end
    (first : token s.mem lex ≠ FDT_NOP ∧ token s.mem lex ≠ FDT_PROP ∧ token s.mem lex ≠ FDT_BEGIN_NODE) :
    fdtScanHelper cb strings (bound + 1) last child chain lex s =
      (runCalls cb (doneCall last chain) >>= fun _ =>
        pure (if token s.mem lex = FDT_END_NODE then ptrAdd lex 4 else lex, chain)) s := by
  rw [fdtScanHelper, bind_apply, get_apply]
  simp only [if_neg first.1, if_neg first.2.1, if_neg first.2.2]
  rw [doneCall]
  split_ifs <;> simp [runCalls, Call.perform]

end Tokens

/-- On a memory that holds a body the scan makes the calls of the body, and no others. -/
private theorem fdtScanHelper_calls (keeps : cb.cbClose = none) :
    ∀ {body : DtBody} {inner last : Bool} {child : FdtScanNode}
    {chain : NodePtr} {lex bound : ℕ} {s : Scanning σ}, s.mem = m → body.Holds m inner lex →
    lex + 4 * (body.size + 1) < WORD → 4 * (body.size + 1) ≤ bound →
    fdtScanHelper cb strings bound last child chain lex s =
      (runCalls cb (body.calls m strings lex last child chain) >>= fun _ =>
        pure (behindBody m (lex + 4 * body.size), body.after m strings lex chain)) s := by
  intro body
  induction body with
  | stop =>
    intro inner last child chain lex bound s same holds room enough
    obtain ⟨bound, rfl⟩ : ∃ n, bound = n + 1 := ⟨bound - 1, by omega⟩
    subst same
    have next : ptrAdd lex 4 = lex + 4 := ptrAdd_eq (n := 4) (by omega)
    rw [fdtScanHelper_end holds.token_of_top, next]
    rfl
  | nop rest ih =>
    intro inner last child chain lex bound s same holds room enough
    obtain ⟨first, tail⟩ := holds
    obtain ⟨bound, rfl⟩ : ∃ n, bound = n + 1 := ⟨bound - 1, by omega⟩
    rw [DtBody.size] at room enough
    have next : ptrAdd lex 4 = lex + 4 := ptrAdd_eq (n := 4) (by omega)
    have size : lex + 4 * (1 + rest.size) = lex + 4 + 4 * rest.size := by omega
    rw [fdtScanHelper_nop (same ▸ first), next, ih same tail (by omega) (by omega), DtBody.size, size]
    rfl
  | prop name value rest ih =>
    intro inner last child chain lex bound s same holds room enough
    obtain ⟨first, length, short, offset, block, tail⟩ := holds
    obtain ⟨bound, rfl⟩ : ∃ n, bound = n + 1 := ⟨bound - 1, by omega⟩
    rw [DtBody.size] at room enough
    have next : ptrAdd lex 12 = lex + 12 := ptrAdd_eq (n := 12) (by omega)
    have len : (token m (lex + 4)).toInt = value.length := by
      rw [BitVec.toInt_eq_toNat_of_lt (by omega), length]
    have size : lex + 4 * (3 + (value.length + 3) / 4 + rest.size) =
      lex + 4 * (3 + (value.length + 3) / 4) + 4 * rest.size := by
      omega
    have behind := @behindProp_eq lex value.length short (by omega)
    rw [fdtScanHelper_prop (same ▸ first), same, len, offset, next, DtBody.size, size]
    cases last with
    | true => rfl
    | false =>
      simp only [DtBody.calls, DtBody.after, runCalls, Call.perform, bind_assoc, behind, requires,
        Bool.not_false, if_true, pure_bind, Bool.false_eq_true, if_false]
      exact KeepsMem.bind_congr (KeepsMem.callback _) fun _ t held =>
        ih (held.trans same) tail (by omega) (by omega)
  | node name children rest ihChildren ihRest =>
    intro inner last child chain lex bound s same holds room enough
    obtain ⟨first, text, body, tail⟩ := holds
    obtain ⟨bound, rfl⟩ : ∃ n, bound = n + 1 := ⟨bound - 1, by omega⟩
    rw [DtBody.size] at room enough
    have next : ptrAdd lex 4 = lex + 4 := ptrAdd_eq (n := 4) (by omega)
    have inside : ptrAdd lex (4 * (2 + name.length / 4 : ℕ)) = lex + 4 * (2 + name.length / 4) :=
      ptrAdd_words (by omega)
    have size : lex + 4 * (2 + name.length / 4 + children.size + 1 + rest.size) =
        lex + 4 * (2 + name.length / 4 + children.size + 1) + 4 * rest.size := by omega
    have behind : behindBody m (lex + 4 * (2 + name.length / 4) + 4 * children.size) =
        lex + 4 * (2 + name.length / 4 + children.size + 1) := by
      rw [behindBody, if_pos body.ends]
      omega
    rw [fdtScanHelper_node keeps (same ▸ first), same, DtBody.size, size]
    simp only [DtBody.calls, DtBody.after, next, runCalls_append, runCalls, Call.perform, bind_assoc,
      List.append_assoc, List.cons_append]
    apply KeepsMem.bind_congr (KeepsMem.runCalls _)
    intro _ t heldDone
    apply KeepsMem.bind_congr (KeepsMem.callIf _ _)
    intro _ u heldOpen
    have held : u.mem = m := heldOpen.trans (heldDone.trans same)
    rw [strlen_length text (by omega), within, pure_bind]
    have start : ptrAdd lex (4 * (2 + (name.length : ℤ) / 4)) = lex + 4 * (2 + name.length / 4) := by
      exact_mod_cast ptrAdd_words (p := lex) (n := 2 + name.length / 4) (by omega)
    rw [start, bind_apply, ihChildren held body (by omega) (by omega), ← bind_apply]
    simp only [bind_assoc, pure_bind, behind]
    apply KeepsMem.bind_congr (KeepsMem.runCalls _)
    intro _ v heldChildren
    exact ihRest (heldChildren.trans held) tail (by omega) (by omega)

def fdtCalls (m : Bytes) (fdt : ℕ) (tree : DtBody) : List Call :=
  tree.calls m (stringsAt m fdt) (structAt m fdt) false .fresh []

/-- `fdt_scan` makes the calls of a walk over the tree in document order. -/
theorem fdtScan_calls {bound fdt : ℕ} {tree : DtBody} {s : Scanning σ} (keeps : cb.cbClose = none)
    (holds : HoldsFdt s.mem fdt tree) (enough : 4 * (tree.size + 1) ≤ bound) :
    fdtScan bound fdt cb s = runCalls cb (fdtCalls s.mem fdt tree) s := by
  rw [fdtScan, bind_apply, get_apply]
  simp only [if_pos (And.intro holds.magic holds.version)]
  change (fdtScanHelper cb (stringsAt s.mem fdt) bound false .fresh [] (structAt s.mem fdt) >>= fun _ =>
    pure ()) s = _
  rw [bind_apply, fdtScanHelper_calls keeps rfl holds.holds holds.room enough, ← bind_apply]
  simp only [bind_assoc, pure_bind, bind_pure_unit]
  rfl

end Calls

section Order

variable {σ : Type} {cb : FdtCb σ} {m : Bytes} {strings lex : ℕ} {last : Bool} {child : FdtScanNode}
  {chain : NodePtr}

/-- No property stands behind a child of the same node; at the top there are properties only if
`early` says so. -/
def DtBody.Ordered : Bool → DtBody → Prop
  | _, stop => True
  | early, nop rest => rest.Ordered early
  | early, prop _ _ rest => early = true ∧ rest.Ordered early
  | _, node _ children rest => children.Ordered true ∧ rest.Ordered false

private theorem misplaced_iff :
    ∀ {body : DtBody} {lex : ℕ} {last : Bool} {child : FdtScanNode} {chain : NodePtr},
    Call.misplaced ∈ body.calls m strings lex last child chain ↔ ¬ body.Ordered (!last) := by
  have done : ∀ last chain, Call.misplaced ∉ doneCall last chain := by
    intro last chain
    rw [doneCall]
    split_ifs <;> simp
  intro body
  induction body with
  | stop => simp [DtBody.calls, DtBody.Ordered, done]
  | nop rest ih => simp [DtBody.calls, DtBody.Ordered, ih]
  | prop name value rest ih =>
    intro lex last child chain
    cases last with
    | true => simp [DtBody.calls, DtBody.Ordered]
    | false => simp [DtBody.calls, DtBody.Ordered, ih]
  | node name children rest ihChildren ihRest =>
    simp only [DtBody.calls, DtBody.Ordered, List.mem_append, List.mem_cons, done, ihChildren, ihRest]
    simp [imp_iff_not_or]

/-- Callbacks that return never keep the scan from returning. -/
structure Returning (cb : FdtCb σ) : Prop where
  opens : ∀ f ∈ cb.cbOpen, ∀ m node s, ∃ t, f m node s = .ok () t
  prop : ∀ m p s, ∃ t, cb.cbProp m p s = .ok () t
  done : ∀ f ∈ cb.cbDone, ∀ m node s, ∃ t, f m node s = .ok () t
  keeps : cb.cbClose = none

private theorem callback_returns {f : Bytes → Bounded σ Unit} (returns : ∀ m s, ∃ t, f m s = .ok () t)
    (s : Scanning σ) :
    ∃ t, callback f s = .ok () t := by
  obtain ⟨t, call⟩ := returns s.mem s.extra
  exact ⟨_, by rw [callback, call]⟩

private theorem callIf_returns {f : Option (Bytes → NodePtr → Bounded σ Unit)}
    (returns : ∀ g ∈ f, ∀ m node s, ∃ t, g m node s = .ok () t) (node : NodePtr) (s : Scanning σ) :
    ∃ t, callIf f node s = .ok () t := by
  cases f with
  | none => exact ⟨s, rfl⟩
  | some f => exact callback_returns (fun m s => returns f rfl m node s) s

private theorem runCalls_returns_iff (returning : Returning cb) : ∀ {calls : List Call} {s : Scanning σ},
    (∃ t, runCalls cb calls s = .ok () t) ↔ Call.misplaced ∉ calls := by
  intro calls
  induction calls with
  | nil => exact fun {s} => ⟨fun _ => List.not_mem_nil, fun _ => ⟨s, rfl⟩⟩
  | cons call calls ih =>
    intro s
    have returns : call ≠ .misplaced → ∃ t, call.perform cb s = .ok () t := by
      intro other
      cases call with
      | opens node => exact callIf_returns returning.opens node s
      | prop p => exact callback_returns (fun m s => returning.prop m p s) s
      | done node => exact callIf_returns returning.done node s
      | misplaced => exact absurd rfl other
    by_cases stops : call = .misplaced
    · subst stops
      constructor
      · rintro ⟨t, run⟩
        cases run
      · exact fun absent => absurd (List.mem_cons_self) absent
    · obtain ⟨t, run⟩ := returns stops
      rw [runCalls, bind_of_ok run, ih, List.mem_cons, not_or]
      exact ⟨fun rest => ⟨Ne.symm stops, rest⟩, fun both => both.2⟩

/-- A scan that does not return stops at a property behind a child. -/
private theorem runCalls_stops (returning : Returning cb) : ∀ {calls : List Call} {s : Scanning σ},
    Call.misplaced ∈ calls →
    ∃ t, runCalls cb calls s = .error (.stops (.assertFailed "!last")) t := by
  intro calls
  induction calls with
  | nil => exact fun absent => absurd absent List.not_mem_nil
  | cons call calls ih =>
    intro s member
    by_cases here : call = .misplaced
    · subst here
      exact ⟨s, rfl⟩
    · have first : ∃ t, runCalls cb [call] s = .ok () t :=
        (runCalls_returns_iff returning).mpr fun only => here (List.mem_singleton.mp only).symm
      obtain ⟨t, run⟩ := first
      obtain ⟨u, rest⟩ := @ih t ((List.mem_cons.mp member).resolve_left (Ne.symm here))
      refine ⟨u, ?_⟩
      rw [← List.singleton_append, runCalls_append, bind_of_ok run, rest]

/-- A node as the scan visits it: as it was opened, its properties in order, and as it was when they
were read. -/
structure Visit where
  opened : NodePtr
  props : List FdtScanProp
  node : NodePtr
deriving DecidableEq, Repr

def Visit.calls (v : Visit) : List Call := .opens v.opened :: v.props.map .prop ++ [.done v.node]

/-- A node that was opened, and its properties so far. -/
abbrev Opened := Option (NodePtr × List FdtScanProp)

def Opened.calls : Opened → List Call
  | none => []
  | some (opened, props) => .opens opened :: props.map .prop

def Opened.close (chain : NodePtr) : Opened → List Visit
  | none => []
  | some (opened, props) => [⟨opened, props, chain⟩]

def Opened.add (p : FdtScanProp) : Opened → Opened := Option.map fun o => (o.1, o.2 ++ [p])

/-- The nodes of the tree in document order. A node starts with the default cells or, as in the
scan, with those that its elder sibling had at its end. -/
def DtBody.visits (m : Bytes) (strings : ℕ) (inherits : Bool) : DtBody → ℕ → Opened → FdtScanNode →
    NodePtr → List Visit
  | stop, _, opened, _, chain => opened.close chain
  | nop rest, lex, opened, child, chain => rest.visits m strings inherits (lex + 4) opened child chain
  | prop name value rest, lex, opened, child, chain =>
    let chain := setCells m (ptrAdd strings name) lex chain
    rest.visits m strings inherits (lex + 4 * (3 + (value.length + 3) / 4))
      (opened.add ⟨chain, ptrAdd strings name, lex + 12, value.length⟩) child chain
  | node name children rest, lex, opened, child, chain =>
    let child := { child with name := lex + 4 }
    let inside := lex + 4 * (2 + name.length / 4)
    let behind := lex + 4 * (2 + name.length / 4 + children.size + 1)
    let next := if inherits then (children.after m strings inside (child :: chain)).headD child else .fresh
    opened.close chain ++ children.visits m strings inherits inside (some (child :: chain, [])) .fresh
    (child :: chain) ++
      rest.visits m strings inherits behind none next chain

def fdtVisits (m : Bytes) (fdt : ℕ) (tree : DtBody) : List Visit :=
  tree.visits m (stringsAt m fdt) true (structAt m fdt) none .fresh []

private theorem Opened.close_calls {opened : Opened} (open_iff : (!last && !chain.isEmpty) = opened.isSome) :
    opened.calls ++ doneCall last chain = (opened.close chain).flatMap Visit.calls := by
  rw [doneCall, open_iff]
  cases opened with
  | none => rfl
  | some o => simp [Opened.calls, Opened.close, Visit.calls]

theorem setCells_isEmpty (m : Bytes) (name lex : ℕ) (chain : NodePtr) :
    (setCells m name lex chain).isEmpty = chain.isEmpty := by
  cases chain <;> rfl

/-- If every property stands before the children, the calls go node by node: a node is opened, its
properties are reported, and it is done, before the next node in document order is opened. -/
private theorem calls_visits :
    ∀ {body : DtBody} {lex : ℕ} {last : Bool} {child : FdtScanNode} {chain : NodePtr} {opened : Opened},
    (!last && !chain.isEmpty) = opened.isSome → body.Ordered opened.isSome →
    opened.calls ++ body.calls m strings lex last child chain =
      (body.visits m strings true lex opened child chain).flatMap Visit.calls := by
  intro body
  induction body with
  | stop => exact fun open_iff _ => Opened.close_calls open_iff
  | nop rest ih => exact fun open_iff ordered => ih open_iff ordered
  | prop name value rest ih =>
    intro lex last child chain opened open_iff ⟨early, ordered⟩
    obtain ⟨⟨o, props⟩, rfl⟩ := Option.isSome_iff_exists.mp early
    have first : last = false := by
      cases last with
      | true => exact absurd open_iff (by simp)
      | false => rfl
    subst first
    have still : (!false && !(setCells m (ptrAdd strings name) lex chain).isEmpty) = true := by
      rw [setCells_isEmpty]
      exact open_iff
    rw [DtBody.visits]
    refine Eq.trans ?_ (@ih _ false _ _ (Opened.add _ (some (o, props))) still ordered)
    simp [DtBody.calls, Opened.calls, Opened.add]
  | node name children rest ihChildren ihRest =>
    intro lex last child chain opened open_iff ⟨inner, outer⟩
    rw [DtBody.visits, List.flatMap_append, List.flatMap_append, ← Opened.close_calls open_iff,
      ← @ihChildren _ false _ _ (some _) rfl inner, ← @ihRest _ true _ _ none rfl outer]
    simp [DtBody.calls, Opened.calls]

/-- With the properties of a node before its children, the calls are those of the visits. -/
theorem fdtScan_visits {bound fdt : ℕ} {tree : DtBody} {s : Scanning σ} (keeps : cb.cbClose = none)
    (holds : HoldsFdt s.mem fdt tree) (ordered : tree.Ordered false) (enough : 4 * (tree.size + 1) ≤ bound) :
    fdtScan bound fdt cb s = runCalls cb ((fdtVisits s.mem fdt tree).flatMap Visit.calls) s := by
  rw [fdtScan_calls keeps holds enough, fdtVisits, ← @calls_visits s.mem _ tree _ false _ [] none rfl ordered]
  rfl

theorem sampleTree_ordered : sampleTree.Ordered false := by
  simp only [sampleTree, DtBody.Ordered]
  decide

end Order

section Props

variable {σ : Type} {cb : FdtCb σ} {m : Bytes}

/-- The callbacks for the properties, if they only change what is behind `extra`. -/
private theorem runCalls_props {step : FdtScanProp → σ → σ} (plain : ∀ p, cb.cbProp m p = modify (step p)) :
    ∀ (props : List FdtScanProp) (q : σ),
      runCalls cb (props.map Call.prop) ⟨m, q⟩ = .ok () ⟨m, props.foldl (fun q p => step p q) q⟩ := by
  intro props
  induction props with
  | nil => exact fun q => rfl
  | cons p props ih =>
    intro q
    have first : Call.perform cb (Call.prop p) ⟨m, q⟩ = .ok () ⟨m, step p q⟩ := by
      rw [Call.perform, callback, plain, modify_apply]
    rw [List.map_cons, runCalls, bind_of_ok first, ih, List.foldl_cons]

/-- A node is visited: the note of it is reset, its properties are noted, and `done` decides. -/
theorem runCalls_visit {reset : NodePtr → σ → σ} {step : FdtScanProp → σ → σ}
    {done : Bytes → NodePtr → Bounded σ Unit} (opens : cb.cbOpen = some fun _ node => modify (reset node))
    (plain : ∀ p, cb.cbProp m p = modify (step p)) (decides : cb.cbDone = some done) (v : Visit) (q : σ) :
    runCalls cb v.calls ⟨m, q⟩ =
      callback (fun m => done m v.node) ⟨m, v.props.foldl (fun q p => step p q) (reset v.opened q)⟩ := by
  have first : Call.perform cb (Call.opens v.opened) ⟨m, q⟩ = .ok () ⟨m, reset v.opened q⟩ := by
    rw [Call.perform, opens]
    rfl
  rw [Visit.calls, List.cons_append, runCalls, bind_of_ok first, runCalls_append,
    bind_of_ok (runCalls_props plain _ _)]
  simp only [runCalls, Call.perform, callIf, decides, bind_pure_unit]

end Props

section Cells

variable {m : Bytes} {strings : ℕ}

/-- The cells of the specification. -/
def DefaultCells (node : FdtScanNode) : Prop := node.addressCells = 2 ∧ node.sizeCells = 1

instance (node : FdtScanNode) : Decidable (DefaultCells node) := inferInstanceAs (Decidable (_ ∧ _))

namespace DtBody

def HasNode : DtBody → Prop
  | stop => False
  | nop rest => rest.HasNode
  | prop _ _ rest => rest.HasNode
  | node _ _ _ => True

/-- No node that has a younger sibling changes its cells. -/
def Tidy (m : Bytes) (strings : ℕ) : DtBody → ℕ → NodePtr → Prop
  | stop, _, _ => True
  | nop rest, lex, chain => rest.Tidy m strings (lex + 4) chain
  | prop name value rest, lex, chain =>
    rest.Tidy m strings (lex + 4 * (3 + (value.length + 3) / 4)) (setCells m (ptrAdd strings name) lex chain)
  | node name children rest, lex, chain =>
    let child := { FdtScanNode.fresh with name := lex + 4 }
    let inside := lex + 4 * (2 + name.length / 4)
    let behind := lex + 4 * (2 + name.length / 4 + children.size + 1)
    children.Tidy m strings inside (child :: chain) ∧ rest.Tidy m strings behind chain ∧
      (rest.HasNode → DefaultCells ((children.after m strings inside (child :: chain)).headD child))

end DtBody

/-- The number of visits does not depend on the cells. -/
private theorem visits_length (inherits other : Bool) :
    ∀ {body : DtBody} {lex : ℕ} {opened opened' : Opened} {child child' : FdtScanNode}
    {chain chain' : NodePtr}, opened.isSome = opened'.isSome →
    (body.visits m strings inherits lex opened child chain).length =
    (body.visits m strings other lex opened' child' chain').length := by
  have close : ∀ {opened opened' : Opened} {chain chain' : NodePtr}, opened.isSome = opened'.isSome →
      (opened.close chain).length = (opened'.close chain').length := by
    intro opened opened' chain chain' same
    cases opened <;> cases opened' <;> first | rfl | cases same
  intro body
  induction body with
  | stop => exact fun same => close same
  | nop rest ih => exact fun same => ih same
  | prop name value rest ih => exact fun same => ih (by simpa [Opened.add] using same)
  | node name children rest ihChildren ihRest =>
    intro lex opened opened' child child' chain chain' same
    simp only [DtBody.visits, List.length_append]
    exact congrArg₂ (· + ·) (congrArg₂ (· + ·) (close same) (ihChildren rfl)) (ihRest rfl)

/-- The first visit is of the node that is open. -/
private theorem visits_opened {inherits : Bool} :
    ∀ {body : DtBody} {lex : ℕ} {o : NodePtr} {props : List FdtScanProp} {child : FdtScanNode}
    {chain : NodePtr}, ∃ v, (body.visits m strings inherits lex (some (o, props)) child chain).head? =
    some v ∧ v.opened = o := by
  intro body
  induction body with
  | stop => exact fun {_ _ _ _ _} => ⟨_, rfl, rfl⟩
  | nop rest ih => exact ih
  | prop name value rest ih => exact ih
  | node name children rest _ _ => exact fun {_ _ _ _ _} => ⟨_, rfl, rfl⟩

/-- Behind a node the first visit is of the next sibling. -/
theorem visits_sibling {inherits : Bool} :
    ∀ {body : DtBody} {lex : ℕ} {child : FdtScanNode} {chain : NodePtr}, body.HasNode →
    ∃ v name chain', (body.visits m strings inherits lex none child chain).head? = some v ∧
      v.opened = { child with name := name } :: chain' := by
  intro body
  induction body with
  | stop => exact fun none => none.elim
  | nop rest ih => exact fun some => ih some
  | prop name value rest ih => exact fun some => ih some
  | node name children rest _ _ =>
    intro lex child chain _
    obtain ⟨v, first, opened⟩ := @visits_opened m strings inherits children (lex + 4 * (2 + name.length / 4))
      ({ child with name := lex + 4 } :: chain) [] .fresh ({ child with name := lex + 4 } :: chain)
    refine ⟨v, _, _, ?_, opened⟩
    simp only [DtBody.visits, Opened.close, List.nil_append, List.head?_append, first, Option.some_or]

private theorem visits_leaf {inherits : Bool} :
    ∀ {body : DtBody} {lex : ℕ} {child : FdtScanNode} {chain : NodePtr}, ¬ body.HasNode →
    body.visits m strings inherits lex none child chain = [] ∧ body.Tidy m strings lex chain := by
  intro body
  induction body with
  | stop => exact fun _ => ⟨rfl, trivial⟩
  | nop rest ih => exact fun none => ih none
  | prop name value rest ih => exact fun none => ih none
  | node name children rest _ _ => exact fun none => absurd trivial none

/-- Of the struct for the children only the cells count. -/
theorem visits_default {inherits : Bool} {child : FdtScanNode} (cells : DefaultCells child) :
    ∀ {body : DtBody} {lex : ℕ}
    {opened : Opened} {chain : NodePtr},
    body.visits m strings inherits lex opened child chain =
    body.visits m strings inherits lex opened .fresh chain := by
  have named : ∀ name, { child with name := name } = { FdtScanNode.fresh with name := name } := by
    intro name
    rw [cells.1, cells.2]
    rfl
  intro body
  induction body with
  | stop => exact fun {_ _ _} => rfl
  | nop rest ih => exact ih
  | prop name value rest ih => exact ih
  | node name children rest _ _ =>
    intro lex opened chain
    simp only [DtBody.visits, named]

private theorem visits_specified_iff : ∀ {body : DtBody} {lex : ℕ} {opened : Opened} {chain : NodePtr},
    body.visits m strings true lex opened .fresh chain = body.visits m strings false lex opened .fresh chain ↔
      body.Tidy m strings lex chain := by
  intro body
  induction body with
  | stop => simp [DtBody.visits, DtBody.Tidy]
  | nop rest ih => exact ih
  | prop name value rest ih => exact ih
  | node name children rest ihChildren ihRest =>
    intro lex opened chain
    simp only [DtBody.visits, DtBody.Tidy, if_true, Bool.false_eq_true, if_false, List.append_assoc,
      List.append_cancel_left_eq]
    set child := { FdtScanNode.fresh with name := lex + 4 }
    set next := (children.after m strings (lex + 4 * (2 + name.length / 4)) (child :: chain)).headD child
    constructor
    · intro same
      obtain ⟨inner, outer⟩ := List.append_inj same (visits_length true false rfl)
      refine ⟨ihChildren.mp inner, ?_⟩
      by_cases some : rest.HasNode
      · have default : DefaultCells next := by
          obtain ⟨v, n, c, first, opened⟩ := @visits_sibling m strings true rest
            (lex + 4 * (2 + name.length / 4 + children.size + 1)) next chain some
          obtain ⟨v', n', c', first', opened'⟩ := @visits_sibling m strings false rest
            (lex + 4 * (2 + name.length / 4 + children.size + 1)) .fresh chain some
          rw [outer, first'] at first
          rw [← Option.some.inj first, opened'] at opened
          have equal := (List.cons.inj opened).1
          exact ⟨(congrArg FdtScanNode.addressCells equal).symm, (congrArg FdtScanNode.sizeCells equal).symm⟩
        rw [visits_default default] at outer
        exact ⟨ihRest.mp outer, fun _ => default⟩
      · exact ⟨(@visits_leaf m strings true rest _ next chain some).2, fun node => absurd node some⟩
    · rintro ⟨inner, outer, cells⟩
      by_cases some : rest.HasNode
      · rw [ihChildren.mpr inner, visits_default (cells some), ihRest.mpr outer]
      · rw [ihChildren.mpr inner, (visits_leaf some).1, (visits_leaf some).1]

/-- An observer of the scan: the node that is open, its properties, and the visits so far. -/
structure Record where
  opened : NodePtr
  props : List FdtScanProp
  visits : List Visit

def recordCb : FdtCb Record where
  cbOpen := some fun _ node => modify fun r => { r with opened := node, props := [] }
  cbProp := fun _ p => modify fun r => { r with props := r.props ++ [p] }
  cbDone := some fun _ node => modify fun r => { r with visits := r.visits ++ [⟨r.opened, r.props, node⟩] }
  cbClose := none

private theorem record_props (props : List FdtScanProp) (r : Record) :
    props.foldl (fun r p => { r with props := r.props ++ [p] }) r = { r with props := r.props ++ props } := by
  induction props generalizing r with
  | nil => simp
  | cons p props ih =>
    rw [List.foldl_cons, ih]
    simp

private theorem record_visits (m : Bytes) : ∀ (visits : List Visit) (r : Record),
    ∃ r', runCalls recordCb (visits.flatMap Visit.calls) ⟨m, r⟩ = .ok () ⟨m, r'⟩ ∧
    r'.visits = r.visits ++ visits := by
  intro visits
  induction visits with
  | nil => exact fun r => ⟨r, rfl, (List.append_nil _).symm⟩
  | cons v visits ih =>
    intro r
    have first := @runCalls_visit _ recordCb m (fun node r => { r with opened := node, props := [] }) _ _ rfl
      (fun _ => rfl) rfl v r
    rw [record_props] at first
    obtain ⟨r', rest, log⟩ := ih ⟨v.opened, v.props, r.visits ++ [v]⟩
    refine ⟨r', ?_, ?_⟩
    · rw [List.flatMap_cons, runCalls_append, bind_of_ok first]
      exact rest
    · rw [log, List.append_assoc]
      rfl

/-- The scan sees every node with the cells of the specification exactly if no node that has a
younger sibling changes its cells: the struct for the children is initialized once, and the next
child goes on with it. -/
theorem cells_specified_iff {bound fdt : ℕ} {tree : DtBody} (holds : HoldsFdt m fdt tree)
    (ordered : tree.Ordered false) (enough : 4 * (tree.size + 1) ≤ bound) :
    (∃ t, fdtScan bound fdt recordCb ⟨m, ⟨[], [], []⟩⟩ = .ok () t ∧
      t.extra.visits = tree.visits m (stringsAt m fdt) false (structAt m fdt) none .fresh []) ↔
      tree.Tidy m (stringsAt m fdt) (structAt m fdt) [] := by
  obtain ⟨r, run, log⟩ := record_visits m (fdtVisits m fdt tree) ⟨[], [], []⟩
  rw [@fdtScan_visits _ recordCb bound fdt tree ⟨m, ⟨[], [], []⟩⟩ rfl holds ordered enough, run,
    ← visits_specified_iff]
  constructor
  · rintro ⟨t, same, specified⟩
    cases same
    exact log.symm.trans specified
  · intro same
    exact ⟨_, rfl, log.trans same⟩

private theorem siblingTree_untidy :
    ¬ siblingTree.Tidy siblingFdt (stringsAt siblingFdt 0) (structAt siblingFdt 0) [] := by
  intro tidy
  have first := tidy.1.2.2 trivial
  exact absurd first (by decide +kernel)

/-- The second child is reported with the cells that the first one set. -/
theorem cells_specified_iff_sample :
    ¬ ∃ t, fdtScan 200 0 recordCb ⟨siblingFdt, ⟨[], [], []⟩⟩ = .ok () t ∧
      t.extra.visits = siblingTree.visits siblingFdt (stringsAt siblingFdt 0) false
      (structAt siblingFdt 0) none .fresh [] := by
  have ordered : siblingTree.Ordered false := by
    simp only [siblingTree, DtBody.Ordered]
    decide
  exact mt (cells_specified_iff siblingFdt_holds ordered (by decide)).mp siblingTree_untidy

end Cells

section Results

variable {σ : Type} {cb : FdtCb σ}

/-- An encoded tree with the properties before the children is reported node by node in document
order: a node is opened, its properties are reported in their order, and it is done before the next
node is opened. -/
theorem fdtScan_encoded {s : Scanning σ} {bound fdt : ℕ} {tree : DtBody} {names : List UInt8}
    (keeps : cb.cbClose = none) (writable : tree.Writable) (ordered : tree.Ordered false)
    (block : Bytes.Block s.mem fdt (encodeFdt tree names)) (small : 40 + 4 * (tree.size + 1) < 2 ^ 32)
    (top : fdt + (40 + 4 * (tree.size + 1)) < WORD) (enough : 4 * (tree.size + 1) ≤ bound) :
    fdtScan bound fdt cb s = runCalls cb ((fdtVisits s.mem fdt tree).flatMap Visit.calls) s :=
  fdtScan_visits keeps (encodeFdt_holds writable block small top).1 ordered enough

theorem fdtScan_encoded_sample : fdtScan 200 0 htifCb ⟨sampleFdt, ⟨false, false⟩⟩ =
    runCalls htifCb ((fdtVisits sampleFdt 0 sampleTree).flatMap Visit.calls) ⟨sampleFdt, ⟨false, false⟩⟩ :=
  @fdtScan_encoded _ htifCb ⟨sampleFdt, ⟨false, false⟩⟩ _ _ _ sampleNames rfl sampleTree_writable
  sampleTree_ordered
    (block_listMemory _) (by decide) (by decide) (by decide)

/-- With callbacks that return, `fdt_scan` returns exactly if no property stands behind a child of
the same node, and otherwise its assertion fails. -/
theorem fdtScan_returns_iff {bound fdt : ℕ} {tree : DtBody} {s : Scanning σ} (returning : Returning cb)
    (holds : HoldsFdt s.mem fdt tree) (enough : 4 * (tree.size + 1) ≤ bound) :
    ((∃ t, fdtScan bound fdt cb s = .ok () t) ↔ tree.Ordered true) ∧
      ((∃ t, fdtScan bound fdt cb s = .error (.stops (.assertFailed "!last")) t) ↔ ¬ tree.Ordered true) := by
  have late : Call.misplaced ∈ fdtCalls s.mem fdt tree ↔ ¬ tree.Ordered true := misplaced_iff
  rw [fdtScan_calls returning.keeps holds enough]
  refine ⟨by rw [runCalls_returns_iff returning, late,
    not_not], ?_, fun unordered => runCalls_stops returning (late.mpr unordered)⟩
  rintro ⟨t, stopped⟩ ordered
  obtain ⟨u, returned⟩ := (runCalls_returns_iff returning).mpr fun member => late.mp member ordered
  rw [stopped] at returned
  cases returned

private theorem htifCb_returning : Returning htifCb where
  opens := by
    rintro f held m node s
    cases held
    exact ⟨_, rfl⟩
  prop := fun m p s => ⟨_, rfl⟩
  done := by
    rintro f held m node s
    cases held
    exact ⟨_, rfl⟩
  keeps := rfl

/-- One tree with the properties before the children, and one with a property behind a child. -/
theorem fdtScan_returns_iff_sample :
    (∃ t, fdtScan 200 0 htifCb ⟨sampleFdt, ⟨false, false⟩⟩ = .ok () t) ∧
      ∃ t, fdtScan 200 0 htifCb ⟨lateFdt, ⟨false, false⟩⟩ = .error (.stops (.assertFailed "!last")) t := by
  have ordered : sampleTree.Ordered true := by
    simp only [sampleTree, DtBody.Ordered]
    decide
  have late : ¬ lateTree.Ordered true := by
    simp only [lateTree, DtBody.Ordered]
    decide
  exact ⟨(fdtScan_returns_iff htifCb_returning sampleFdt_holds (by decide)).1.mpr ordered,
    (fdtScan_returns_iff htifCb_returning lateFdt_holds (by decide)).2.mpr late⟩

end Results

end Pke.Proofs
