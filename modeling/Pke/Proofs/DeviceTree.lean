import Mathlib.Tactic.IntervalCases
import Pke.Model.DeviceTree
import Pke.Proofs.Strings

/-! # The format of a flattened device tree

A body is what stands between the beginning of a node and its end: properties, nodes with their own
bodies and `NOP`s, and the tree is the body at the top. Tokens and cells are big-endian numbers.
Memory holds at most one body at an address, and what a device tree compiler wrote is held.
-/

namespace Pke.Proofs

open Pke.Lib Pke.Model

section Tokens

variable {m : Bytes} {p : ℕ}

private theorem bswap_bytes (a b c d : BitVec 8) : bswap (d ++ c ++ b ++ a) = a ++ b ++ c ++ d := by
  apply BitVec.eq_of_getLsbD_eq
  intro i inside
  simp only [bswap, BitVec.getLsbD_or, BitVec.getLsbD_shiftLeft, BitVec.getLsbD_ushiftRight, BitVec.getLsbD_and,
    BitVec.getLsbD_append]
  interval_cases i <;> simp

private theorem append_byte_toNat {n : ℕ} (x : BitVec n) (y : BitVec 8) :
    (x ++ y).toNat = x.toNat * 256 + y.toNat := by
  rw [BitVec.toNat_append, Nat.shiftLeft_eq, Nat.mul_comm, ← Nat.two_pow_add_eq_or_of_lt y.isLt]

/-- A token is a big-endian number. -/
theorem token_toNat (m : Bytes) (p : ℕ) : (token m p).toNat = m.bigEndian p 4 := by
  rw [token, loadUint32, bswap_bytes]
  simp only [append_byte_toNat, UInt8.toNat_toBitVec, Bytes.bigEndian, Nat.zero_mul, Nat.zero_add, Nat.add_zero]

theorem ptrAdd_eq {n : ℕ} (inside : p + n < WORD) : ptrAdd p n = p + n := by
  rw [ptrAdd, ← Int.natCast_add, ← Int.natCast_mod, Int.toNat_natCast, Nat.mod_eq_of_lt inside]

/-- The cells are read as one big-endian number, and its low 64 bits are kept. -/
theorem readCells_bigEndian (m : Bytes) : ∀ (cells : ℕ) {value result : ℕ}, value + 4 * cells < WORD →
    readCells m cells value (result % WORD) =
      (value + 4 * cells, (result * 256 ^ (4 * cells) + m.bigEndian value (4 * cells)) % WORD) := by
  intro cells
  induction cells with
  | zero =>
    intro value result _
    simp [readCells, Bytes.bigEndian]
  | succ cells ih =>
    intro value result inside
    have shifted : (result % WORD) <<< 32 + (token m value).toNat ≡ result * 256 ^ 4 + m.bigEndian value 4
      [MOD WORD] := by
      rw [Nat.shiftLeft_eq, token_toNat]
      exact ((Nat.mod_modEq result WORD).mul_right _).add_right _
    have next : ptrAdd value 4 = value + 4 := ptrAdd_eq (n := 4) (by omega)
    rw [readCells, next, shifted, ih (by omega),
      show 4 * (cells + 1) = 4 + 4 * cells by omega, Bytes.bigEndian_add,
      Nat.pow_add, Nat.add_mul, Nat.mul_assoc, Nat.add_assoc, Nat.add_assoc]

theorem fdtGetAddress_bigEndian {node : FdtScanNode} {value : ℕ}
    (inside : value + 4 * node.addressCells.toNat < WORD) :
    fdtGetAddress m node value =
      (value + 4 * node.addressCells.toNat, m.bigEndian value (4 * node.addressCells.toNat) % WORD) := by
  have cells := @readCells_bigEndian m node.addressCells.toNat value 0 inside
  rwa [Nat.zero_mod, Nat.zero_mul, Nat.zero_add] at cells

theorem fdtGetSize_bigEndian {node : FdtScanNode} {value : ℕ}
    (inside : value + 4 * node.sizeCells.toNat < WORD) :
    fdtGetSize m node value = (value + 4 * node.sizeCells.toNat,
      m.bigEndian value (4 * node.sizeCells.toNat) % WORD) := by
  have cells := @readCells_bigEndian m node.sizeCells.toNat value 0 inside
  rwa [Nat.zero_mod, Nat.zero_mul, Nat.zero_add] at cells

/-- The test for a literal is whether memory holds the literal. -/
theorem isText_iff {text : String} (nonzero : ∀ c ∈ literal text, c ≠ 0) :
    isText m p text = true ↔ Bytes.Text m p (literal text) := by
  set s := literal text with shape
  have zero : s.getD s.length 0 = 0 := by simp
  have byte : ∀ i (inside : i < s.length), s.getD i 0 = s[i] := fun i inside => by simp [inside]
  have round : ∀ i, (i ≤ s.length ∧ ∀ j < i, m (p + j) = s.getD j 0) →
      (decide (m (p + i) ≠ 0) && decide (m (p + i) = s.getD i 0)) = true →
      (i + 1 ≤ s.length ∧ ∀ j < i + 1, m (p + j) = s.getD j 0) ∧ s.length - (i + 1) < s.length - i := by
    rintro i ⟨inside, same⟩ go
    obtain ⟨positive, equal⟩ : m (p + i) ≠ 0 ∧ m (p + i) = s.getD i 0 := by simpa using go
    have more : i ≠ s.length := fun last => positive (equal.trans (last ▸ zero))
    refine ⟨⟨by omega, fun j before => ?_⟩, by omega⟩
    rcases Nat.lt_succ_iff_lt_or_eq.mp before with earlier | rfl
    · exact same j earlier
    · exact equal
  obtain ⟨i, loop, ⟨inside, same⟩, stop⟩ := whileLoop_total
    (fun i => i ≤ s.length ∧ ∀ j < i, m (p + j) = s.getD j 0) (fun i => s.length - i) round
    ⟨Nat.zero_le _, fun j none => absurd none (Nat.not_lt_zero j)⟩ (Nat.sub_le s.length 0)
  have differ : ¬ (m (p + i) ≠ 0 ∧ m (p + i) = s.getD i 0) := by simpa using stop
  have result : isText m p text = true ↔ m (p + i) = s.getD i 0 := by
    rw [isText, strcmp, ← shape, loop, Option.map_some, decide_eq_true_iff, Option.some.injEq,
      ← UInt8.toNat_inj]
    omega
  rw [result]
  constructor
  · intro equal
    have both : m (p + i) = 0 := by
      by_contra positive
      exact differ ⟨positive, equal⟩
    have last : i = s.length := by
      by_contra early
      have short : i < s.length := by omega
      exact nonzero _ (List.getElem_mem short) ((byte i short).symm.trans (equal.symm.trans both))
    subst last
    refine ⟨fun j here => ?_, nonzero, both⟩
    rw [same j here, byte j here]
  · intro holds
    rcases Nat.lt_or_eq_of_le inside with short | rfl
    · rw [holds.block i short, byte i short]
    · rw [holds.ends, zero]

end Tokens

/-- What stands between the beginning of a node and its end; a property has the offset of its name. -/
inductive DtBody where
  | stop
  | nop (rest : DtBody)
  | prop (name : ℕ) (value : List UInt8) (rest : DtBody)
  | node (name : List UInt8) (children rest : DtBody)
deriving DecidableEq, Repr

namespace DtBody

/-- The words before the token that ends the body. -/
def size : DtBody → ℕ
  | stop => 0
  | nop rest => 1 + rest.size
  | prop _ value rest => 3 + (value.length + 3) / 4 + rest.size
  | node name children rest => 2 + name.length / 4 + children.size + 1 + rest.size

/-- The memory holds the body at `lex`. A body in a node ends with `FDT_END_NODE`, and the one at
the top with any token that is not one of the others. -/
def Holds (m : Bytes) : Bool → ℕ → DtBody → Prop
  | inner, lex, stop =>
    if inner then token m lex = FDT_END_NODE
    else token m lex ≠ FDT_NOP ∧ token m lex ≠ FDT_PROP ∧ token m lex ≠ FDT_BEGIN_NODE
  | inner, lex, nop rest => token m lex = FDT_NOP ∧ rest.Holds m inner (lex + 4)
  | inner, lex, prop name value rest =>
    token m lex = FDT_PROP ∧ (token m (lex + 4)).toNat = value.length ∧ value.length + 3 < 2 ^ 31 ∧
      (token m (lex + 8)).toNat = name ∧ Bytes.Block m (lex + 12) value ∧
      rest.Holds m inner (lex + 4 * (3 + (value.length + 3) / 4))
  | inner, lex, node name children rest =>
    token m lex = FDT_BEGIN_NODE ∧ Bytes.Text m (lex + 4) name ∧
      children.Holds m true (lex + 4 * (2 + name.length / 4)) ∧
      rest.Holds m inner (lex + 4 * (2 + name.length / 4 + children.size + 1))

/-- The token at the beginning says which constructor a body has. -/
theorem Holds.token_of_top {m : Bytes} {lex : ℕ} {inner : Bool} (ends : stop.Holds m inner lex) :
    token m lex ≠ FDT_NOP ∧ token m lex ≠ FDT_PROP ∧ token m lex ≠ FDT_BEGIN_NODE := by
  cases inner with
  | false => exact ends
  | true =>
    have last : token m lex = FDT_END_NODE := ends
    rw [last]
    decide

theorem Holds.ends {m : Bytes} : ∀ {body : DtBody} {lex : ℕ}, body.Holds m true lex →
    token m (lex + 4 * body.size) = FDT_END_NODE := by
  intro body
  induction body with
  | stop => exact fun holds => holds
  | nop rest ih =>
    intro lex ⟨_, tail⟩
    rw [size, show lex + 4 * (1 + rest.size) = lex + 4 + 4 * rest.size by omega]
    exact ih tail
  | prop name value rest ih =>
    intro lex ⟨_, _, _, _, _, tail⟩
    rw [size, Nat.mul_add, ← Nat.add_assoc]
    exact ih tail
  | node name children rest _ ih =>
    intro lex ⟨_, _, _, tail⟩
    rw [size, Nat.mul_add, ← Nat.add_assoc]
    exact ih tail

end DtBody

/-- Where the header says that the tree and the names are. -/
def structAt (m : Bytes) (fdt : ℕ) : ℕ := ptrAdd fdt (token m (fdt + 8)).toNat

def stringsAt (m : Bytes) (fdt : ℕ) : ℕ := ptrAdd fdt (token m (fdt + 12)).toNat

/-- A header that the scan understands, and the tree. -/
structure HoldsFdt (m : Bytes) (fdt : ℕ) (tree : DtBody) : Prop where
  magic : token m fdt = FDT_MAGIC
  version : token m (fdt + 24) ≤ FDT_VERSION
  holds : tree.Holds m false (structAt m fdt)
  room : structAt m fdt + 4 * (tree.size + 1) < WORD

section Encoding

variable {m : Bytes} {a n : ℕ}

def beWord (n : ℕ) : List UInt8 := [.ofNat (n / 2 ^ 24), .ofNat (n / 2 ^ 16), .ofNat (n / 2 ^ 8), .ofNat n]

/-- Bytes and zeros, so many words in all. -/
def padded (bytes : List UInt8) (words : ℕ) : List UInt8 := bytes ++ List.replicate (4 * words - bytes.length) 0

theorem beWord_token (block : Bytes.Block m a (beWord n)) (small : n < 2 ^ 32) : (token m a).toNat = n := by
  have first := block 0 (by decide : 0 < 4)
  have second := block 1 (by decide : 1 < 4)
  have third := block 2 (by decide : 2 < 4)
  have fourth := block 3 (by decide : 3 < 4)
  simp only [beWord, List.getElem_cons_zero, List.getElem_cons_succ, Nat.add_zero] at first second third fourth
  rw [token_toNat]
  simp only [Bytes.bigEndian, Nat.add_zero, first, second, third, fourth, UInt8.toNat_ofNat']
  omega

namespace DtBody

/-- A body as a device tree compiler writes it. -/
def encode : Bool → DtBody → List UInt8
  | inner, stop => beWord (if inner then 2 else 9)
  | inner, nop rest => beWord 4 ++ rest.encode inner
  | inner, prop name value rest =>
    beWord 3 ++ beWord value.length ++ beWord name ++ padded value ((value.length + 3) / 4) ++ rest.encode inner
  | inner, node name children rest =>
    beWord 1 ++ padded name (name.length / 4 + 1) ++ children.encode true ++ rest.encode inner

/-- Offsets and lengths fit their fields, and names are strings. -/
def Writable : DtBody → Prop
  | stop => True
  | nop rest => rest.Writable
  | prop name value rest => name < 2 ^ 32 ∧ value.length + 3 < 2 ^ 31 ∧ rest.Writable
  | node name children rest => (∀ c ∈ name, c ≠ 0) ∧ children.Writable ∧ rest.Writable

theorem beWord_length (n : ℕ) : (beWord n).length = 4 := rfl

theorem padded_length {bytes : List UInt8} {words : ℕ} (fits : bytes.length ≤ 4 * words) :
    (padded bytes words).length = 4 * words := by
  rw [padded, List.length_append, List.length_replicate]
  omega

private theorem encode_length : ∀ {body : DtBody} {inner : Bool},
    (body.encode inner).length = 4 * (body.size + 1) := by
  intro body
  induction body with
  | stop => exact fun {inner} => beWord_length _
  | nop rest ih =>
    intro inner
    rw [encode, size, List.length_append, ih, beWord_length]
    omega
  | prop name value rest ih =>
    intro inner
    simp only [encode, size, List.length_append, ih, beWord_length]
    rw [padded_length (by omega)]
    omega
  | node name children rest ihChildren ihRest =>
    intro inner
    simp only [encode, size, List.length_append, ihChildren, ihRest, beWord_length]
    rw [padded_length (by omega)]
    omega

private theorem padded_text {bytes : List UInt8} (block : Bytes.Block m a (padded bytes (bytes.length / 4 + 1)))
    (nonzero : ∀ c ∈ bytes, c ≠ 0) : Bytes.Text m a bytes := by
  obtain ⟨text, zeros⟩ := Bytes.block_append.mp block
  refine ⟨text, nonzero, ?_⟩
  have last := zeros 0 (by rw [List.length_replicate]; omega)
  rwa [Nat.add_zero, List.getElem_replicate] at last

/-- Memory with the encoded bytes holds the body. -/
private theorem encode_holds : ∀ {body : DtBody} {inner : Bool} {lex : ℕ}, body.Writable →
    Bytes.Block m lex (body.encode inner) → body.Holds m inner lex := by
  intro body
  induction body with
  | stop =>
    intro inner lex _ block
    cases inner with
    | true => exact BitVec.eq_of_toNat_eq (beWord_token block (by decide))
    | false =>
      have last : token m lex = 9 := BitVec.eq_of_toNat_eq (beWord_token block (by decide))
      simp only [Holds, last]
      decide
  | nop rest ih =>
    intro inner lex writable block
    obtain ⟨first, tail⟩ := Bytes.block_append.mp block
    exact ⟨BitVec.eq_of_toNat_eq (beWord_token first (by decide)), ih writable tail⟩
  | prop name value rest ih =>
    intro inner lex ⟨small, short, writable⟩ block
    simp only [encode, Bytes.block_append, List.length_append, beWord_length] at block
    rw [padded_length (by omega)] at block
    obtain ⟨⟨⟨⟨first, length⟩, offset⟩, bytes⟩, tail⟩ := block
    refine ⟨BitVec.eq_of_toNat_eq (beWord_token first (by decide)), beWord_token length (by omega), short,
      beWord_token offset small, (Bytes.block_append.mp bytes).1, ?_⟩
    have place : lex + 4 * (3 + (value.length + 3) / 4) =
      lex + (4 + 4 + 4 + 4 * ((value.length + 3) / 4)) := by omega
    rw [place]
    exact ih writable tail
  | node name children rest ihChildren ihRest =>
    intro inner lex ⟨nonzero, inside, outside⟩ block
    simp only [encode, Bytes.block_append, List.length_append, beWord_length, encode_length] at block
    rw [padded_length (by omega)] at block
    obtain ⟨⟨⟨first, text⟩, body⟩, tail⟩ := block
    have start : lex + 4 * (2 + name.length / 4) = lex + (4 + 4 * (name.length / 4 + 1)) := by omega
    have behind : lex + 4 * (2 + name.length / 4 + children.size + 1) =
        lex + (4 + 4 * (name.length / 4 + 1) + 4 * (children.size + 1)) := by omega
    refine ⟨BitVec.eq_of_toNat_eq (beWord_token first (by decide)), padded_text text nonzero, ?_, ?_⟩
    · rw [start]
      exact ihChildren inside body
    · rw [behind]
      exact ihRest outside tail

end DtBody

/-- The header, with the sizes of the tree and of the names. -/
def fdtHeader (tree : DtBody) (names : List UInt8) : List UInt8 :=
  beWord 0xd00dfeed ++ beWord (40 + 4 * (tree.size + 1) + names.length) ++ beWord 40 ++
  beWord (40 + 4 * (tree.size + 1)) ++
    beWord 0 ++ beWord 17 ++ beWord 16 ++ beWord 0 ++ beWord names.length ++ beWord (4 * (tree.size + 1))

def encodeFdt (tree : DtBody) (names : List UInt8) : List UInt8 :=
  fdtHeader tree names ++ tree.encode false ++ names

private theorem fdtHeader_length (tree : DtBody) (names : List UInt8) :
    (fdtHeader tree names).length = 40 := rfl

/-- The scan understands what was encoded, and finds the tree and the names. -/
theorem encodeFdt_holds {fdt : ℕ} {tree : DtBody} {names : List UInt8} (writable : tree.Writable)
    (block : Bytes.Block m fdt (encodeFdt tree names)) (small : 40 + 4 * (tree.size + 1) < 2 ^ 32)
    (top : fdt + (40 + 4 * (tree.size + 1)) < WORD) : HoldsFdt m fdt tree ∧
    Bytes.Block m (stringsAt m fdt) names := by
  rw [encodeFdt, Bytes.block_append, Bytes.block_append] at block
  obtain ⟨⟨header, body⟩, strings⟩ := block
  simp only [fdtHeader, Bytes.block_append, List.length_append, DtBody.beWord_length] at header
  obtain ⟨⟨⟨⟨⟨⟨⟨⟨⟨magic, -⟩, structs⟩, names'⟩, -⟩, -⟩, version⟩, -⟩, -⟩, -⟩ := header
  have structPlace : structAt m fdt = fdt + 40 := by
    rw [structAt, beWord_token structs (by decide)]
    exact ptrAdd_eq (by omega)
  have stringsPlace : stringsAt m fdt = fdt + (40 + 4 * (tree.size + 1)) := by
    rw [stringsAt, beWord_token names' small]
    exact ptrAdd_eq (by omega)
  rw [fdtHeader_length] at body
  refine ⟨⟨BitVec.eq_of_toNat_eq (beWord_token magic (by decide)), ?_, ?_, ?_⟩, ?_⟩
  · rw [BitVec.le_def, beWord_token version (by decide)]
    decide
  · rw [structPlace]
    exact DtBody.encode_holds writable body
  · rw [structPlace]
    omega
  · rwa [stringsPlace, ← fdtHeader_length tree names, ← @DtBody.encode_length tree false, ← List.length_append]

/-- The memory that holds these bytes at 0. -/
def listMemory (bytes : List UInt8) : Bytes := (bytes.getD · 0)

theorem block_listMemory (bytes : List UInt8) : Bytes.Block (listMemory bytes) 0 bytes := by
  intro i inside
  rw [listMemory, Nat.zero_add, List.getD_eq_getElem _ _ inside]

/-- A root that is compatible with the interface to the host, and a memory node with one range. -/
def sampleTree : DtBody :=
  .node [] (.prop 16 (literal "ucb,htif0" ++ [0])
    (.node [109] (.prop 0 (literal "memory" ++ [0])
      (.prop 12 (beWord 0 ++ beWord 0x80000000 ++ beWord 0x08000000) .stop)) .stop))
    .stop

def sampleNames : List UInt8 := literal "device_type" ++ 0 :: literal "reg" ++ 0 :: literal "compatible" ++ [0]

def sampleFdt : Bytes := listMemory (encodeFdt sampleTree sampleNames)

theorem sampleTree_writable : sampleTree.Writable := by
  simp only [sampleTree, DtBody.Writable]
  decide +kernel

theorem sampleFdt_holds : HoldsFdt sampleFdt 0 sampleTree :=
  (encodeFdt_holds sampleTree_writable (block_listMemory _) (by decide) (by decide)).1

/-- A root with two children, of which the first one sets its address cells. -/
def siblingTree : DtBody :=
  .node [] (.node [97] (.prop 0 (beWord 1) .stop) (.node [98] .stop .stop)) .stop

/-- A root with a property behind its child. -/
def lateTree : DtBody := .node [] (.node [97] .stop (.prop 0 (beWord 1) .stop)) .stop

def siblingNames : List UInt8 := literal "#address-cells" ++ [0]

def siblingFdt : Bytes := listMemory (encodeFdt siblingTree siblingNames)

def lateFdt : Bytes := listMemory (encodeFdt lateTree siblingNames)

theorem siblingFdt_holds : HoldsFdt siblingFdt 0 siblingTree := by
  have writable : siblingTree.Writable := by
    simp only [siblingTree, DtBody.Writable]
    decide +kernel
  exact (encodeFdt_holds writable (block_listMemory _) (by decide) (by decide)).1

theorem lateFdt_holds : HoldsFdt lateFdt 0 lateTree := by
  have writable : lateTree.Writable := by
    simp only [lateTree, DtBody.Writable]
    decide +kernel
  exact (encodeFdt_holds writable (block_listMemory _) (by decide) (by decide)).1

end Encoding

end Pke.Proofs
