import Pke.Proofs.DeviceScan

/-! # What the device tree says: `query_mem` and `query_htif`

Both scans forget at the beginning of a node what they know, note its properties and decide when
these were read, so a scan is a loop over the nodes in document order. `query_htif` finds the
interface exactly if some node is compatible with it. `query_mem` returns exactly if every memory
node can be read and some range contains the kernel, and the size is that of the last such range.
-/

namespace Pke.Proofs

open Pke.Lib Pke.Model

section Visits

/-- Cell counts are values of an `int`. -/
def SmallCells (chain : NodePtr) : Prop := ∀ node ∈ chain, node.addressCells < 2 ^ 31 ∧ node.sizeCells < 2 ^ 31

/-- A property in a region of memory. -/
def PropIn (lo hi : ℕ) (p : FdtScanProp) : Prop := lo < p.value ∧ ∃ n : ℕ, p.len = n ∧ n < 2 ^ 31 ∧
    p.value + n ≤ hi

structure Visit.Sound (lo hi : ℕ) (v : Visit) : Prop where
  node : v.node ≠ []
  cells : SmallCells v.node
  props : ∀ p ∈ v.props, PropIn lo hi p

variable {m : Bytes} {strings lo hi : ℕ}

theorem SmallCells.setCells {chain : NodePtr} (small : SmallCells chain) (name lex : ℕ) :
    SmallCells (setCells m name lex chain) := by
  cases chain with
  | nil => exact small
  | cons node parents =>
    have bounded := (token m (lex + 12)).toInt_lt
    have own := small node List.mem_cons_self
    intro n member
    rw [Model.setCells] at member
    rcases List.mem_cons.mp member with rfl | parent
    · constructor <;> split_ifs <;> first | exact own.1 | exact own.2 | exact bounded
    · exact small n (List.mem_cons_of_mem _ parent)

theorem SmallCells.after : ∀ {body : DtBody} {lex : ℕ} {chain : NodePtr}, SmallCells chain →
    SmallCells (body.after m strings lex chain) := by
  intro body
  induction body with
  | stop => exact fun small => small
  | nop rest ih => exact fun small => ih small
  | prop name value rest ih => exact fun small => ih (small.setCells _ _)
  | node name children rest _ ih => exact fun small => ih small

theorem SmallCells.cons {node : FdtScanNode} {chain : NodePtr} (own : SmallCells [node])
    (small : SmallCells chain) :
    SmallCells (node :: chain) := by
  intro n member
  rcases List.mem_cons.mp member with rfl | parent
  · exact own n List.mem_cons_self
  · exact small n parent

theorem SmallCells.headD {chain : NodePtr} {node : FdtScanNode} (small : SmallCells chain)
    (own : SmallCells [node]) :
    SmallCells [chain.headD node] := by
  cases chain with
  | nil => exact own
  | cons first parents =>
    intro n member
    rw [List.mem_singleton.mp member]
    exact small first List.mem_cons_self

/-- The visits of a body are of nodes with their properties in the body. -/
private theorem visits_sound :
    ∀ {body : DtBody} {inner : Bool} {lex : ℕ} {opened : Opened} {child : FdtScanNode} {chain : NodePtr},
    body.Holds m inner lex → lo ≤ lex → lex + 4 * body.size ≤ hi →
    (∀ o ∈ opened, chain ≠ [] ∧ ∀ p ∈ o.2, PropIn lo hi p) → SmallCells [child] →
    SmallCells chain → ∀ v ∈ body.visits m strings true lex opened child chain, v.Sound lo hi := by
  have close : ∀ {opened : Opened} {chain : NodePtr}, (∀ o ∈ opened, chain ≠ [] ∧ ∀ p ∈ o.2, PropIn lo hi p) →
      SmallCells chain → ∀ v ∈ opened.close chain, v.Sound lo hi := by
    intro opened chain inside small v member
    cases opened with
    | none => cases member
    | some o =>
      rw [List.mem_singleton.mp member]
      exact ⟨(inside o rfl).1, small, (inside o rfl).2⟩
  intro body
  induction body with
  | stop => exact fun _ _ _ inside _ small => close inside small
  | nop rest ih =>
    intro inner lex opened child chain holds above below inside own small
    obtain ⟨_, tail⟩ := holds
    rw [DtBody.size] at below
    exact ih tail (by omega) (by omega) inside own small
  | prop name value rest ih =>
    intro inner lex opened child chain holds above below inside own small
    obtain ⟨_, _, short, _, _, tail⟩ := holds
    rw [DtBody.size] at below
    refine ih tail (by omega) (by omega) (fun o member => ?_) own (small.setCells _ _)
    obtain ⟨old, held, rfl⟩ := Option.mem_map.mp member
    have nonnull := (inside old held).1
    refine ⟨fun empty => nonnull ?_, fun p listed => ?_⟩
    · rw [← List.isEmpty_iff, ← setCells_isEmpty m (ptrAdd strings name) lex, empty]
      rfl
    · rcases List.mem_append.mp listed with before | this
      · exact (inside old held).2 p before
      · rw [List.mem_singleton.mp this]
        exact ⟨by simp only; omega, value.length, rfl, by omega, by simp only; omega⟩
  | node name children rest ihChildren ihRest =>
    intro inner lex opened child chain holds above below inside own small v member
    obtain ⟨_, _, body, tail⟩ := holds
    rw [DtBody.size] at below
    have named : SmallCells [{ child with name := lex + 4 }] := by
      intro n same
      rw [List.mem_singleton.mp same]
      exact own child List.mem_cons_self
    have fresh : SmallCells [FdtScanNode.fresh] := by
      intro n same
      rw [List.mem_singleton.mp same]
      decide
    rcases List.mem_append.mp member with early | late
    · rcases List.mem_append.mp early with closed | nested
      · exact close inside small v closed
      · refine ihChildren body (by omega) (by omega) (fun o same => ?_) fresh (named.cons small) v nested
        obtain rfl := Option.some.inj same
        exact ⟨List.cons_ne_nil _ _, fun p none => absurd none List.not_mem_nil⟩
    · refine ihRest tail (by omega) (by omega) (fun o none => by cases none) ?_ small v late
      exact (SmallCells.after (named.cons small)).headD named

private theorem fdtVisits_sound {fdt : ℕ} {tree : DtBody} {v : Visit} (holds : HoldsFdt m fdt tree)
    (member : v ∈ fdtVisits m fdt tree) :
    v.Sound (structAt m fdt) (structAt m fdt + 4 * tree.size) := by
  refine visits_sound holds.holds (le_refl _) (le_refl _) (fun o none => by cases none) ?_ ?_ v member
  · intro n same
    rw [List.mem_singleton.mp same]
    decide
  · exact fun n none => absurd none List.not_mem_nil

end Visits

section Htif

variable {m : Bytes} {fdt bound : ℕ} {tree : DtBody} {q : HtifQuery}

/-- The node is compatible with the host-target interface. -/
def Visit.Htif (m : Bytes) (v : Visit) : Prop :=
  ∃ p ∈ v.props, Bytes.Text m p.name (literal "compatible") ∧ Bytes.Text m p.value (literal "ucb,htif0")

private theorem htif_props (m : Bytes) (props : List FdtScanProp) (q : HtifQuery) :
    props.foldl (fun q p => if isText m p.name "compatible" && isText m p.value "ucb,htif0"
      then { q with compat := true } else q) q =
      { q with
        compat := q.compat || props.any fun p => isText m p.name "compatible" && isText m p.value "ucb,htif0" } := by
  induction props generalizing q with
  | nil => simp
  | cons p props ih =>
    rw [List.foldl_cons, ih, List.any_cons]
    split_ifs with here
    · simp [here]
    · simp [Bool.eq_false_iff.mpr here]

private theorem htif_visit (m : Bytes) (v : Visit) (q : HtifQuery) :
    ∃ q', runCalls htifCb v.calls ⟨m, q⟩ = .ok () ⟨m, q'⟩ ∧ (q'.htif = true ↔ q.htif = true ∨ v.Htif m) := by
  have compat : (v.props.any fun p => isText m p.name "compatible" && isText m p.value "ucb,htif0") = true ↔
    v.Htif m := by
    simp only [List.any_eq_true, Bool.and_eq_true,
      isText_iff (by decide +kernel : ∀ c ∈ literal "compatible", c ≠ 0),
      isText_iff (by decide +kernel : ∀ c ∈ literal "ucb,htif0", c ≠ 0), Visit.Htif]
  have run := @runCalls_visit _ htifCb m (fun _ q => { q with compat := false }) _ _ rfl (fun _ => rfl) rfl v q
  rw [htif_props] at run
  refine ⟨_, run, ?_⟩
  simp only [Bool.false_or]
  split_ifs with found
  · exact ⟨fun _ => Or.inr (compat.mp found), fun _ => rfl⟩
  · exact ⟨Or.inl, fun either => either.resolve_right fun htif => found (compat.mpr htif)⟩

private theorem htif_visits (m : Bytes) : ∀ (visits : List Visit) (q : HtifQuery),
    ∃ q', runCalls htifCb (visits.flatMap Visit.calls) ⟨m, q⟩ = .ok () ⟨m, q'⟩ ∧
      (q'.htif = true ↔ q.htif = true ∨ ∃ v ∈ visits, v.Htif m) := by
  intro visits
  induction visits with
  | nil => exact fun q => ⟨q, rfl, by simp⟩
  | cons v visits ih =>
    intro q
    obtain ⟨q', first, found⟩ := htif_visit m v q
    obtain ⟨q'', rest, later⟩ := ih q'
    refine ⟨q'', ?_, ?_⟩
    · rw [List.flatMap_cons, runCalls_append, bind_of_ok first, rest]
    · rw [later, found, List.exists_mem_cons_iff, or_assoc]

/-- `query_htif` returns, and says that there is an interface exactly if it knew or some node is
compatible with it. -/
theorem queryHtif_iff (holds : HoldsFdt m fdt tree) (ordered : tree.Ordered false)
    (enough : 4 * (tree.size + 1) ≤ bound) :
    ∃ q', queryHtif bound fdt ⟨m, q⟩ = .ok () ⟨m, q'⟩ ∧
      (q'.htif = true ↔ q.htif = true ∨ ∃ v ∈ fdtVisits m fdt tree, v.Htif m) := by
  rw [queryHtif, @fdtScan_visits _ htifCb bound fdt tree ⟨m, q⟩ rfl holds ordered enough]
  exact htif_visits m _ q

/-- A root that is compatible with the interface is found. -/
theorem queryHtif_iff_sample :
    ∃ q', queryHtif 200 0 ⟨sampleFdt, ⟨false, false⟩⟩ = .ok () ⟨sampleFdt, q'⟩ ∧ q'.htif = true ∧
      ∃ v ∈ fdtVisits sampleFdt 0 sampleTree, v.Htif sampleFdt := by
  have checked : returned (fun _ t => t.extra.htif) (queryHtif 200 0 ⟨sampleFdt, ⟨false, false⟩⟩) = true := by
    decide +kernel
  obtain ⟨_, t, call, found⟩ := returned_eq_true checked
  have sound : ∃ q', queryHtif 200 0 ⟨sampleFdt, ⟨false, false⟩⟩ = .ok () ⟨sampleFdt, q'⟩ ∧
      (q'.htif = true ↔ (⟨false, false⟩ : HtifQuery).htif = true ∨ ∃ v ∈ fdtVisits sampleFdt 0 sampleTree,
        v.Htif sampleFdt) :=
    queryHtif_iff sampleFdt_holds sampleTree_ordered (by decide)
  obtain ⟨q', run, htif⟩ := sound
  rw [run] at call
  obtain ⟨-, rfl⟩ := EStateM.Result.ok.inj call
  exact ⟨q', run, found, (htif.mp found).resolve_left Bool.false_ne_true⟩

end Htif

section Mem

/-- Some property says that the node is memory. -/
def Visit.isMemory (m : Bytes) (v : Visit) : Bool :=
  v.props.any fun p => isText m p.name "device_type" && isText m p.value "memory"

/-- The last property with the ranges of the node. -/
def Visit.reg (m : Bytes) (v : Visit) : Option FdtScanProp :=
  v.props.reverse.find? fun p => isText m p.name "reg"

/-- The cells of an address and a size. -/
def rangeCells (parent : FdtScanNode) : ℕ := parent.addressCells.toNat + parent.sizeCells.toNat

/-- Base and size of the range at an address. -/
def rangeAt (m : Bytes) (parent : FdtScanNode) (value : ℕ) : ℕ × ℕ :=
  (m.bigEndian value (4 * parent.addressCells.toNat) % WORD,
    m.bigEndian (value + 4 * parent.addressCells.toNat) (4 * parent.sizeCells.toNat) % WORD)

def rangesAt (m : Bytes) (parent : FdtScanNode) : ℕ → ℕ → List (ℕ × ℕ)
  | _, 0 => []
  | value, n + 1 => rangeAt m parent value :: rangesAt m parent (value + 4 * rangeCells parent) n

/-- The ranges in a property; the cells are those of the parent. -/
def propRanges (m : Bytes) (p : FdtScanProp) : NodePtr → List (ℕ × ℕ)
  | _ :: parent :: _ => rangesAt m parent p.value (p.len.toNat / 4 / rangeCells parent)
  | _ => []

/-- The ranges of a memory node. -/
def Visit.ranges (m : Bytes) (v : Visit) : List (ℕ × ℕ) :=
  if v.isMemory m then ((v.reg m).map (propRanges m · v.node)).getD [] else []

/-- If it is memory, the node has a `reg` property that consists of ranges. -/
def Visit.Readable (m : Bytes) (v : Visit) : Prop := v.isMemory m = true → ∃ p ∈ v.reg m, p.len % 4 = 0 ∧
  (p.len = 0 ∨ ∃ own parent parents, v.node = own :: parent :: parents ∧ 0 < rangeCells parent ∧
    p.len.toNat / 4 % rangeCells parent = 0)

/-- The kernel is in the range. -/
def inRange (self : ℕ) (r : ℕ × ℕ) : Bool := r.1 ≤ self ∧ self ≤ (r.1 + r.2) % WORD

/-- The size after a range was read. -/
def pick (self : ℕ) (size : ℕ) (r : ℕ × ℕ) : ℕ := if inRange self r then r.2 else size

variable {m : Bytes} {self stop : ℕ} {own parent : FdtScanNode} {parents : NodePtr}

theorem test_pos {value w : ℕ} (place : value + 4 * w = stop) (short : 4 * w < 2 ^ 63) :
    wrapLong (stop - value) > 0 ↔ 0 < w := by
  have difference : (stop : ℤ) - value = 4 * w := by omega
  rw [difference, wrapLong, Int.bmod_eq_of_le (by simp only [WORD]; omega) (by simp only [WORD]; omega)]
  omega

private theorem readCells_value (m : Bytes) : ∀ (cells : ℕ) {value result : ℕ}, value < WORD →
    (readCells m cells value result).1 = (value + 4 * cells) % WORD := by
  intro cells
  induction cells with
  | zero => exact fun {value} _ inside => (Nat.mod_eq_of_lt inside).symm
  | succ cells ih =>
    intro value result inside
    have next : ptrAdd value 4 = (value + 4) % WORD := by
      simp only [ptrAdd, WORD]
      omega
    rw [readCells, next, ih (Nat.mod_lt _ (by decide)), Nat.mod_add_mod,
      show 4 * (cells + 1) = 4 + 4 * cells by omega, Nat.add_assoc]

/-- One round of the loop of `mem_done`. -/
theorem memRanges_round {bound value : ℕ} {q : MemQuery} (go : wrapLong (stop - value) > 0) :
    memRanges self m (own :: parent :: parents) stop (bound + 1) value q =
      (let first := fdtGetAddress m parent value
       let second := fdtGetSize m parent first.1
       memRanges self m (own :: parent :: parents) stop bound second.1
        { q with gMemSize := pick self q.gMemSize (first.2, second.2) }) := by
  rw [memRanges, if_pos go]
  simp only [pick, inRange, decide_eq_true_eq]
  split_ifs with inside
  · rfl
  · rfl

private theorem memRanges_end {bound value : ℕ} {q : MemQuery} {chain : NodePtr}
    (done : ¬ wrapLong (stop - value) > 0) :
    memRanges self m chain stop bound value q = .ok value q := by
  rw [memRanges.eq_def]
  exact congrFun (if_neg done) q

/-- A range of a node without a parent is not read. -/
private theorem memRanges_orphan {bound value r : ℕ} {q t : MemQuery} (go : wrapLong (stop - value) > 0) :
    memRanges self m [own] stop bound value q ≠ .ok r t := by
  rw [memRanges.eq_def]
  simp only [if_pos go]
  intro run
  cases bound <;> cases run

/-- The loop reads the ranges if they fill the property. -/
private theorem memRanges_reads (some : 0 < rangeCells parent) (top : stop < WORD) :
    ∀ {n bound value : ℕ} {q : MemQuery}, value + 4 * (rangeCells parent * n) = stop →
    4 * (rangeCells parent * n) < 2 ^ 63 → n ≤ bound →
    memRanges self m (own :: parent :: parents) stop bound value q =
      .ok stop { q with gMemSize := (rangesAt m parent value n).foldl (pick self) q.gMemSize } := by
  intro n
  induction n with
  | zero =>
    intro bound value q place _ _
    have here : value = stop := by omega
    rw [memRanges_end (by rw [test_pos place (by simp)]; omega), here]
    rfl
  | succ n ih =>
    intro bound value q place short enough
    obtain ⟨bound, rfl⟩ : ∃ b, bound = b + 1 := ⟨bound - 1, by omega⟩
    rw [Nat.mul_succ] at place short
    have cells : rangeCells parent = parent.addressCells.toNat + parent.sizeCells.toNat := rfl
    have go : wrapLong (stop - value) > 0 := (test_pos place short).mpr (by omega)
    rw [memRanges_round go, fdtGetAddress_bigEndian (by omega)]
    simp only
    rw [fdtGetSize_bigEndian (by omega)]
    simp only
    rw [ih (by omega) (by omega) (by omega), rangesAt, List.foldl_cons, Nat.add_assoc, ← Nat.mul_add]
    rfl

/-- The loop does not end at the end of a property that does not consist of ranges. -/
private theorem memRanges_misses (top : stop < WORD) (cells : rangeCells parent < 2 ^ 32) :
    ∀ {bound value w : ℕ} {q t : MemQuery}, value + 4 * w = stop → 4 * w < 2 ^ 62 → 0 < w →
    (rangeCells parent = 0 ∨ w % rangeCells parent ≠ 0) →
    memRanges self m (own :: parent :: parents) stop bound value q ≠ .ok stop t := by
  intro bound
  induction bound with
  | zero =>
    intro value w q t place short more _ run
    rw [memRanges, if_pos ((test_pos place (by omega)).mpr more)] at run
    cases run
  | succ bound ih =>
    intro value w q t place short more bad
    have next : (fdtGetSize m parent (fdtGetAddress m parent value).1).1 =
      (value + 4 * rangeCells parent) % WORD := by
      rw [fdtGetSize, fdtGetAddress, readCells_value m _
        (by rw [readCells_value m _ (by omega)]; exact Nat.mod_lt _ (by decide)),
        readCells_value m _ (by omega), Nat.mod_add_mod, rangeCells, Nat.mul_add, Nat.add_assoc]
    rw [memRanges_round ((test_pos place (by omega)).mpr more)]
    simp only [next]
    rcases Nat.lt_or_ge w (rangeCells parent) with beyond | inside
    · -- the pointer is behind the end now
      have negative : ¬ wrapLong (stop - ((value + 4 * rangeCells parent) % WORD : ℕ)) > 0 := by
        rw [wrapLong, Int.natCast_mod, Int.sub_emod_bmod,
          Int.bmod_eq_of_le (by simp only [WORD]; omega) (by simp only [WORD]; omega)]
        omega
      have other : (value + 4 * rangeCells parent) % WORD ≠ stop := by
        simp only [WORD] at *
        omega
      rw [memRanges_end negative]
      intro same
      cases same
      exact other rfl
    · rw [Nat.mod_eq_of_lt (by omega)]
      rcases bad with none | rest
      · exact ih (by omega) short more (Or.inl none)
      · rw [Nat.mod_eq_sub_mod inside] at rest
        have left : 0 < w - rangeCells parent := by
          by_contra nothing
          rw [Nat.eq_zero_of_not_pos nothing, Nat.zero_mod] at rest
          exact rest rfl
        exact ih (by omega) (by omega) left (Or.inr rest)

/-- What the scan knows of a node when its properties were read. -/
def Visit.note (m : Bytes) (v : Visit) : MemScan :=
  ⟨v.isMemory m, ((v.reg m).map (·.value)).getD 0, ((v.reg m).map (·.len)).getD 0⟩

private theorem device_type_ne_reg {p : ℕ} (named : isText m p "device_type" = true) :
    isText m p "reg" = false := by
  by_contra other
  rw [isText_iff (by decide +kernel)] at named
  rw [Bool.not_eq_false, isText_iff (by decide +kernel)] at other
  exact absurd (named.unique other) (by decide)

private theorem mem_props (m : Bytes) (v : Visit) (size : ℕ) (step : FdtScanProp → MemQuery → MemQuery)
    (memory : ∀ p q, step p q =
      if isText m p.name "device_type" && isText m p.value "memory"
      then { q with scan := { q.scan with memory := true } }
      else if isText m p.name "reg" then { q with scan := { q.scan with regValue := p.value, regLen := p.len } }
      else q) :
    v.props.foldl (fun q p => step p q) ⟨⟨false, 0, 0⟩, size⟩ = ⟨v.note m, size⟩ := by
  obtain ⟨opened, props, node⟩ := v
  induction props using List.reverseRecOn with
  | nil => rfl
  | append_singleton props p ih =>
    rw [List.foldl_append, List.foldl_cons, List.foldl_nil, ih, memory]
    simp only [Visit.note, Visit.isMemory, Visit.reg, List.any_append, List.any_cons, List.any_nil,
      Bool.or_false, List.reverse_append, List.reverse_singleton, List.singleton_append]
    split_ifs with found reg
    · have other := device_type_ne_reg (Bool.and_eq_true_iff.mp found).1
      simp only [List.find?_cons, other, found, Bool.or_true]
    · simp only [List.find?_cons, reg, Bool.eq_false_iff.mpr found, Bool.or_false, Option.map_some,
        Option.getD_some]
    · simp only [List.find?_cons, Bool.eq_false_iff.mpr reg, Bool.eq_false_iff.mpr found, Bool.or_false]

variable {v : Visit} {lo hi bound : ℕ} {q t : MemQuery}

/-- The end of the ranges of a sound property. -/
private theorem stop_eq {value n : ℕ} (top : value + n < WORD) :
    ptrAdd value (4 * (n : ℤ).tdiv 4) = value + 4 * (n / 4) := by
  have words : (4 : ℤ) * (n : ℤ).tdiv 4 = 4 * ((n / 4 : ℕ) : ℤ) := by
    congr 1
  rw [words]
  exact ptrAdd_words (by omega)

/-- What `mem_done` does at a memory node with a `reg` property. -/
theorem memDone_reg {p : FdtScanProp} {n size : ℕ} (memory : v.isMemory m = true) (reg : p ∈ v.reg m)
    (len : p.len = n) (nonnull : 0 < p.value) (top : p.value + n < WORD) :
    memDone bound self m v.node ⟨v.note m, size⟩ =
      (requires (n % 4 = 0) "scan->reg_value && scan->reg_len % 4 == 0" >>= fun _ =>
        memRanges self m v.node (p.value + 4 * (n / 4)) bound p.value >>= fun value =>
          requires (p.value + 4 * (n / 4) = value) "end == value") ⟨v.note m, size⟩ := by
  have scan : v.note m = ⟨true, p.value, n⟩ := by
    rw [Visit.note, memory, Option.mem_def.mp reg, ← len]
    rfl
  have aligned : (p.value ≠ 0 ∧ (n : ℤ).tmod 4 = 0) ↔ n % 4 = 0 := by
    rw [Int.tmod_eq_emod_of_nonneg (Int.natCast_nonneg n)]
    omega
  rw [memDone, bind_apply, get_apply, scan]
  simp only [if_pos, stop_eq top, aligned]

/-- The loop reads a property that consists of ranges. -/
private theorem memRanges_readable {p : FdtScanProp} {n size : ℕ} {scan : MemScan} {chain : NodePtr}
    (len : p.len = n) (aligned : n % 4 = 0) (short : n < 2 ^ 31) (top : p.value + n < WORD) (enough : n ≤ bound)
    (fits : p.len = 0 ∨ ∃ own parent parents, chain = own :: parent :: parents ∧ 0 < rangeCells parent ∧
      p.len.toNat / 4 % rangeCells parent = 0) :
    memRanges self m chain (p.value + 4 * (n / 4)) bound p.value ⟨scan, size⟩ =
      .ok (p.value + 4 * (n / 4)) ⟨scan, (propRanges m p chain).foldl (pick self) size⟩ := by
  rcases fits with empty | ⟨own, parent, parents, rfl, some, divides⟩
  · have zero : n = 0 := by omega
    have none : propRanges m p chain = [] := by
      rw [propRanges.eq_def, empty, Int.toNat_zero, Nat.zero_div]
      split
      · rw [Nat.zero_div, rangesAt]
      · rfl
    rw [zero, none, Nat.zero_div, Nat.mul_zero, Nat.add_zero, memRanges_end (by simp [wrapLong])]
    rfl
  · rw [len, Int.toNat_natCast] at divides
    have rounds : rangeCells parent * (n / 4 / rangeCells parent) = n / 4 :=
      Nat.mul_div_cancel' (Nat.dvd_of_mod_eq_zero divides)
    have few : n / 4 / rangeCells parent ≤ n / 4 := Nat.div_le_self _ _
    rw [propRanges, len, Int.toNat_natCast]
    exact memRanges_reads some (by omega) (by rw [rounds]) (by rw [rounds]; omega) (by omega)

private theorem memDone_readable {size : ℕ} (sound : v.Sound lo hi) (top : hi < WORD) (enough : hi ≤ lo + bound)
    (readable : v.Readable m) :
    memDone bound self m v.node ⟨v.note m, size⟩ = .ok () ⟨v.note m, (v.ranges m).foldl (pick self) size⟩ := by
  cases memory : v.isMemory m with
  | false =>
    have none : v.ranges m = [] := by rw [Visit.ranges, memory, if_neg Bool.false_ne_true]
    rw [memDone, bind_apply, get_apply, none]
    simp only [Visit.note, memory, Bool.false_eq_true, if_false]
    rfl
  | true =>
    obtain ⟨p, reg, aligned, fits⟩ := readable memory
    obtain ⟨nonnull, n, len, short, inside⟩ :=
      sound.props p (List.mem_reverse.mp (List.mem_of_find?_eq_some reg))
    have whole : n % 4 = 0 := by omega
    have ranges : v.ranges m = propRanges m p v.node := by
      rw [Visit.ranges, if_pos memory, Option.mem_def.mp reg]
      rfl
    rw [memDone_reg memory reg len (by omega) (by omega), ranges, decide_eq_true whole, requires,
      if_pos rfl, pure_bind, bind_of_ok (memRanges_readable len whole short (by omega) (by omega) fits),
      requires, decide_eq_true rfl, if_pos rfl]
    rfl

theorem requires_eq_ok {σ : Type} {condition : Bool} {text : String} {s t : σ} {u : Unit} :
    requires condition text s = .ok u t ↔ condition = true ∧ s = t := by
  rw [requires]
  split_ifs with holds
  · simp [holds]
  · simp [holds]

private theorem memDone_unreadable {size : ℕ} {t : MemQuery} (sound : v.Sound lo hi) (top : hi < WORD)
    (unreadable : ¬ v.Readable m) : memDone bound self m v.node ⟨v.note m, size⟩ ≠ .ok () t := by
  rw [Visit.Readable, Classical.not_imp] at unreadable
  obtain ⟨memory, bad⟩ := unreadable
  cases reg : v.reg m with
  | none =>
    have scan : v.note m = ⟨true, 0, 0⟩ := by rw [Visit.note, memory, reg]; rfl
    rw [memDone, bind_apply, get_apply, scan]
    intro run
    cases run
  | some p =>
    obtain ⟨nonnull, n, len, short, inside⟩ :=
      sound.props p (List.mem_reverse.mp (List.mem_of_find?_eq_some reg))
    rw [memDone_reg memory reg len (by omega) (by omega)]
    intro run
    obtain ⟨_, q, aligned, rest⟩ := bind_eq_ok.mp run
    obtain ⟨whole, rfl⟩ := requires_eq_ok.mp aligned
    obtain ⟨value, q', loop, last⟩ := bind_eq_ok.mp rest
    obtain ⟨ends, rfl⟩ := requires_eq_ok.mp last
    obtain rfl := of_decide_eq_true ends
    have divides : n % 4 = 0 := of_decide_eq_true whole
    have nonzero : n ≠ 0 := by
      rintro rfl
      exact bad ⟨p, reg, by omega, Or.inl len⟩
    have place : p.value + 4 * (n / 4) = p.value + 4 * (n / 4) := rfl
    have go := (test_pos place (by omega)).mpr (by omega)
    cases chain : v.node with
    | nil => exact sound.node chain
    | cons own parents =>
      rw [chain] at loop
      cases parents with
      | nil =>
        exact memRanges_orphan go loop
      | cons parent parents =>
        have small := sound.cells parent (by simp [chain])
        have cells : rangeCells parent < 2 ^ 32 := by
          simp only [rangeCells]
          omega
        refine memRanges_misses (by omega) cells place (by omega) (by omega) ?_ loop
        by_contra fits
        rw [not_or, not_not] at fits
        refine bad ⟨p, reg, by omega, Or.inr ⟨own, parent, parents, chain, Nat.pos_of_ne_zero fits.1, ?_⟩⟩
        rw [len, Int.toNat_natCast]
        exact fits.2

private theorem mem_visit (bound self : ℕ) (v : Visit) (q : MemQuery) :
    runCalls (memCb bound self) v.calls ⟨m, q⟩ = callback (fun m => memDone bound self m v.node)
    ⟨m, ⟨v.note m, q.gMemSize⟩⟩ := by
  have run := @runCalls_visit _ (memCb bound self) m (fun _ q => { q with scan := ⟨false, 0, 0⟩ }) _ _ rfl
    (fun _ => rfl) rfl v q
  rw [run]
  congr 2
  exact mem_props m v q.gMemSize _ fun _ _ => rfl

/-- The scan of nodes that can be read leaves the size of the last range that contains the kernel. -/
private theorem mem_visits (top : hi < WORD) (enough : hi ≤ lo + bound) :
    ∀ {visits : List Visit} {q : MemQuery}, (∀ v ∈ visits, v.Sound lo hi) →
    ((∃ t, runCalls (memCb bound self) (visits.flatMap Visit.calls) ⟨m, q⟩ = .ok () t) ↔
      ∀ v ∈ visits, v.Readable m) ∧
      ∀ t, runCalls (memCb bound self) (visits.flatMap Visit.calls) ⟨m, q⟩ = .ok () t →
        t.extra.gMemSize = (visits.flatMap (Visit.ranges m)).foldl (pick self) q.gMemSize := by
  intro visits
  induction visits with
  | nil =>
    intro q _
    refine ⟨⟨fun _ v none => absurd none List.not_mem_nil, fun _ => ⟨_, rfl⟩⟩, fun t run => ?_⟩
    cases run
    rfl
  | cons v visits ih =>
    intro q sound
    have here := sound v List.mem_cons_self
    have later : ∀ v ∈ visits, v.Sound lo hi := fun v member => sound v (List.mem_cons_of_mem _ member)
    rw [List.flatMap_cons, runCalls_append, List.flatMap_cons, List.foldl_append]
    by_cases readable : v.Readable m
    · have first : runCalls (memCb bound self) v.calls ⟨m, q⟩ =
          .ok () ⟨m, ⟨v.note m, (v.ranges m).foldl (pick self) q.gMemSize⟩⟩ := by
        rw [mem_visit, callback, memDone_readable here top enough readable]
      obtain ⟨returns, size⟩ := @ih ⟨v.note m, (v.ranges m).foldl (pick self) q.gMemSize⟩ later
      rw [bind_of_ok first]
      exact ⟨returns.trans ⟨fun all => List.forall_mem_cons.mpr ⟨readable, all⟩,
        fun all => (List.forall_mem_cons.mp all).2⟩, size⟩
    · have stops : ∀ t, (runCalls (memCb bound self) v.calls >>= fun _ =>
          runCalls (memCb bound self) (visits.flatMap Visit.calls)) ⟨m, q⟩ ≠ .ok () t := by
        intro t run
        obtain ⟨_, mid, first, _⟩ := bind_eq_ok.mp run
        rw [mem_visit, callback] at first
        split at first
        · exact memDone_unreadable here top readable ‹_›
        · cases first
      exact ⟨⟨fun returns => absurd returns.choose_spec (stops _),
        fun all => absurd (all v List.mem_cons_self) readable⟩, fun t run => absurd run (stops t)⟩

/-- A loop that keeps the last hit ends with it. -/
private theorem foldl_pick (self : ℕ) (ranges : List (ℕ × ℕ)) (size : ℕ) :
    ranges.foldl (pick self) size = ((ranges.filter (inRange self)).getLast?.map Prod.snd).getD size := by
  induction ranges using List.reverseRecOn with
  | nil => rfl
  | append_singleton ranges r ih =>
    rw [List.foldl_append, List.foldl_cons, List.foldl_nil, ih, pick, List.filter_append]
    split_ifs with hit
    · simp [hit]
    · simp [hit]

/-- `query_mem` returns exactly if every memory node can be read and the last range that contains
the kernel has a positive size, and this is the size of memory. -/
theorem queryMem_returns_iff {fdt n : ℕ} {tree : DtBody} (holds : HoldsFdt m fdt tree)
    (ordered : tree.Ordered false) (enough : 4 * (tree.size + 1) ≤ bound) :
    (∃ t, queryMem bound self fdt ⟨m, q⟩ = .ok () t ∧ t.extra.gMemSize = n) ↔
      (∀ v ∈ fdtVisits m fdt tree, v.Readable m) ∧ 0 < n ∧
        ∃ r ∈ (((fdtVisits m fdt tree).flatMap (Visit.ranges m)).filter (inRange self)).getLast?, r.2 = n := by
  have room := holds.room
  obtain ⟨returns, size⟩ := @mem_visits m self _ (structAt m fdt + 4 * tree.size) bound (by omega) (by omega)
    (fdtVisits m fdt tree) ⟨q.scan, 0⟩ fun v member => fdtVisits_sound holds member
  simp only [foldl_pick] at size
  have scan := @fdtScan_visits _ (memCb bound self) bound fdt tree ⟨m, ⟨q.scan, 0⟩⟩ rfl holds ordered enough
  have query : ∀ t, queryMem bound self fdt ⟨m, q⟩ = .ok () t ↔
      runCalls (memCb bound self) ((fdtVisits m fdt tree).flatMap Visit.calls) ⟨m, ⟨q.scan, 0⟩⟩ = .ok () t ∧
        0 < t.extra.gMemSize := by
    intro t
    rw [queryMem, bind_of_ok (modify_apply _ _), ← scan, bind_eq_ok]
    constructor
    · rintro ⟨_, mid, run, rest⟩
      rw [bind_of_ok (get_apply mid), requires_eq_ok, decide_eq_true_iff] at rest
      obtain ⟨positive, rfl⟩ := rest
      exact ⟨run, positive⟩
    · rintro ⟨run, positive⟩
      refine ⟨(), t, run, ?_⟩
      rw [bind_of_ok (get_apply t), requires_eq_ok, decide_eq_true_iff]
      exact ⟨positive, rfl⟩
  simp only [query, Option.mem_def]
  constructor
  · rintro ⟨t, ⟨run, positive⟩, rfl⟩
    refine ⟨returns.mp ⟨t, run⟩, positive, ?_⟩
    rw [size t run] at positive ⊢
    cases last : (((fdtVisits m fdt tree).flatMap (Visit.ranges m)).filter (inRange self)).getLast? with
    | none =>
      rw [last] at positive
      exact absurd positive (Nat.lt_irrefl 0)
    | some r => exact ⟨r, rfl, rfl⟩
  · rintro ⟨readable, positive, r, last, rfl⟩
    obtain ⟨t, run⟩ := returns.mpr readable
    have found : t.extra.gMemSize = r.2 := by
      rw [size t run, last]
      rfl
    exact ⟨t, ⟨run, found ▸ positive⟩, found⟩

/-- The kernel lies in the one range of the memory node. -/
theorem queryMem_returns_iff_sample :
    (∃ t, queryMem 200 0x80001000 0 ⟨sampleFdt, ⟨⟨false, 0, 0⟩, 0⟩⟩ = .ok () t ∧
      t.extra.gMemSize = 0x08000000) ∧
      (∀ v ∈ fdtVisits sampleFdt 0 sampleTree, v.Readable sampleFdt) ∧
        ∃ r ∈ (((fdtVisits sampleFdt 0 sampleTree).flatMap (Visit.ranges sampleFdt)).filter
          (inRange 0x80001000)).getLast?, r.2 = 0x08000000 := by
  have checked : returned (fun _ t => t.extra.gMemSize == 0x08000000)
      (queryMem 200 0x80001000 0 ⟨sampleFdt, ⟨⟨false, 0, 0⟩, 0⟩⟩) = true := by decide +kernel
  obtain ⟨_, t, call, size⟩ := returned_eq_true checked
  have found : ∃ t, queryMem 200 0x80001000 0 ⟨sampleFdt, ⟨⟨false, 0, 0⟩, 0⟩⟩ = .ok () t ∧
      t.extra.gMemSize = 0x08000000 :=
    ⟨t, call, by simpa using size⟩
  obtain ⟨readable, _, range⟩ := (queryMem_returns_iff sampleFdt_holds sampleTree_ordered (by decide)).mp found
  exact ⟨found, readable, range⟩

end Mem

end Pke.Proofs
