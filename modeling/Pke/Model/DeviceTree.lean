import Pke.Model.Strings

/-! # The device tree: `dts_parse.c`, `spike_memory.c` and `query_htif`

The scan walks over the tokens of a flattened device tree in the memory of bytes. Every loop and the
recursion of the scan have a bound, and a call without a result within the bound ends with
`Unfinished.outOfBound`. The callbacks read memory and work on the state behind `extra`, with the
globals that they set; only the scan itself writes to memory, when a `close` callback asks for a
node to be deleted. A node pointer is the chain from the node to the root, as the parent pointers
make it; the empty chain is the null pointer.
-/

namespace Pke.Model

open Pke.Lib

/-- Why a call with a bound on its loops has no result. -/
inductive Unfinished where
  | stops (why : Stop)
  | outOfBound
deriving DecidableEq, Repr

abbrev Bounded (σ : Type) := EStateM Unfinished σ

variable {σ α : Type}

def within : Option α → Bounded σ α
  | some a => pure a
  | none => throw .outOfBound

/-- `assert` in a bounded call. -/
def requires (condition : Bool) (text : String) : Bounded σ Unit :=
  if condition then pure () else throw (.stops (.assertFailed text))

/-- Pointer arithmetic in bytes. -/
def ptrAdd (p : ℕ) (n : ℤ) : ℕ := ((p + n) % WORD).toNat

/-- The `uint32` at an address; the machine is little-endian. -/
def loadUint32 (m : Bytes) (a : ℕ) : BitVec 32 :=
  (m (a + 3)).toBitVec ++ (m (a + 2)).toBitVec ++ (m (a + 1)).toBitVec ++ (m a).toBitVec

def storeUint32 (m : Bytes) (a : ℕ) (w : BitVec 32) : Bytes := fun x =>
  if a ≤ x ∧ x < a + 4 then ⟨(w >>> (8 * (x - a))).setWidth 8⟩ else m x

def bswap (x : BitVec 32) : BitVec 32 :=
  let y := (x &&& 0x00FF00FF#32) <<< 8 ||| (x &&& 0xFF00FF00#32) >>> 8
  (y &&& 0x0000FFFF#32) <<< 16 ||| (y &&& 0xFFFF0000#32) >>> 16

/-- `bswap(*p)`. -/
def token (m : Bytes) (p : ℕ) : BitVec 32 := bswap (loadUint32 m p)

def FDT_MAGIC : BitVec 32 := 0xd00dfeed
def FDT_VERSION : BitVec 32 := 17
def FDT_BEGIN_NODE : BitVec 32 := 1
def FDT_END_NODE : BitVec 32 := 2
def FDT_PROP : BitVec 32 := 3
def FDT_NOP : BitVec 32 := 4

/-- `struct fdt_scan_node` without the parent pointer. -/
structure FdtScanNode where
  name : ℕ
  addressCells : ℤ
  sizeCells : ℤ
deriving DecidableEq, Repr

/-- A node with its parents, the nearest first. -/
abbrev NodePtr := List FdtScanNode

structure FdtScanProp where
  node : NodePtr
  name : ℕ
  value : ℕ
  len : ℤ
deriving DecidableEq, Repr

/-- `struct fdt_cb`; `prop` is called without a check for null. -/
structure FdtCb (σ : Type) where
  cbOpen : Option (Bytes → NodePtr → Bounded σ Unit)
  cbProp : Bytes → FdtScanProp → Bounded σ Unit
  cbDone : Option (Bytes → NodePtr → Bounded σ Unit)
  cbClose : Option (Bytes → NodePtr → Bounded σ ℤ)

/-- Memory and what is behind `extra`. -/
structure Scanning (σ : Type) where
  mem : Bytes
  extra : σ

/-- A callback reads memory and changes what is behind `extra`. -/
def callback (f : Bytes → Bounded σ α) : Bounded (Scanning σ) α := fun s =>
  match f s.mem s.extra with
  | .ok a extra => .ok a { s with extra := extra }
  | .error e extra => .error e { s with extra := extra }

/-- `if (f) f(node, extra)`. -/
def callIf (f : Option (Bytes → NodePtr → Bounded σ Unit)) (node : NodePtr) : Bounded (Scanning σ) Unit :=
  match f with
  | some f => callback fun m => f m node
  | none => pure ()

/-- The bytes of a string literal. -/
def literal (text : String) : List UInt8 := text.toList.map Char.toUInt8

/-- `!strcmp(p, text)` for a literal: the comparison ends within its length. -/
def isText (m : Bytes) (p : ℕ) (text : String) : Bool :=
  strcmp (literal text).length (fun i => m (p + i)) ((literal text).getD · 0) = some 0

/-- The two assignments to the cells of `node`, unless it is null. -/
def setCells (m : Bytes) (name lex : ℕ) : NodePtr → NodePtr
  | [] => []
  | node :: parents =>
    let node :=
      if isText m name "#address-cells" then { node with addressCells := (token m (lex + 12)).toInt } else node
    let node :=
      if isText m name "#size-cells" then { node with sizeCells := (token m (lex + 12)).toInt } else node
    node :: parents

/-- `lex + 3 + (len + 3) / 4`. -/
def behindProp (lex : ℕ) (len : ℤ) : ℕ := ptrAdd lex (4 * (3 + ((len + 3).bmod (2 ^ 32)).tdiv 4))

/-- `while (lex != lex_next) *lex++ = bswap(FDT_NOP)`. -/
def deleteNode (bound lex lexNext : ℕ) : Bounded (Scanning σ) Unit := do
  let s ← get
  let (_, mem) ← within (whileLoop (fun c : ℕ × Bytes => c.1 ≠ lexNext)
    (fun c => (ptrAdd c.1 4, storeUint32 c.2 c.1 (bswap FDT_NOP))) bound (lex, s.mem))
  set { s with mem := mem }

/-- The struct `child` at the start of a call; the name is not set yet. -/
def FdtScanNode.fresh : FdtScanNode := ⟨0, 2, 1⟩

/-- `fdt_scan_helper`. The result is the pointer behind what was read and the node with the cells
that were set. -/
def fdtScanHelper (cb : FdtCb σ) (strings : ℕ) :
    ℕ → Bool → FdtScanNode → NodePtr → ℕ → Bounded (Scanning σ) (ℕ × NodePtr)
  | 0, _, _, _, _ => throw .outOfBound
  | bound + 1, last, child, node, lex => do
    let m := (← get).mem
    if token m lex = FDT_NOP then
      fdtScanHelper cb strings bound last child node (ptrAdd lex 4)
    else if token m lex = FDT_PROP then
      requires (!last) "!last"
      let name := ptrAdd strings (token m (lex + 8)).toNat
      let len := (token m (lex + 4)).toInt
      let node := setCells m name lex node
      callback fun m => cb.cbProp m ⟨node, name, ptrAdd lex 12, len⟩
      fdtScanHelper cb strings bound last child node (behindProp lex len)
    else if token m lex = FDT_BEGIN_NODE then
      if !last && !node.isEmpty then callIf cb.cbDone node
      let child := { child with name := ptrAdd lex 4 }
      callIf cb.cbOpen (child :: node)
      let length ← within (strlen bound fun i => m (child.name + i))
      let (lexNext, chain) ←
        fdtScanHelper cb strings bound false .fresh (child :: node) (ptrAdd lex (4 * (2 + length / 4)))
      let child := chain.headD child
      match cb.cbClose with
      | some close =>
        if (← callback fun m => close m (child :: node)) = -1 then deleteNode bound lex lexNext
      | none => pure ()
      fdtScanHelper cb strings bound true child node lexNext
    else if token m lex = FDT_END_NODE then
      if !last && !node.isEmpty then callIf cb.cbDone node
      return (ptrAdd lex 4, node)
    else
      if !last && !node.isEmpty then callIf cb.cbDone node
      return (lex, node)

/-- `fdt_scan`: nothing happens if the header is not understood. -/
def fdtScan (bound fdt : ℕ) (cb : FdtCb σ) : Bounded (Scanning σ) Unit := do
  let m := (← get).mem
  if token m fdt = FDT_MAGIC ∧ token m (fdt + 24) ≤ FDT_VERSION then
    let strings := ptrAdd fdt (token m (fdt + 12)).toNat
    let lex := ptrAdd fdt (token m (fdt + 8)).toNat
    let _ ← fdtScanHelper cb strings bound false .fresh [] lex

/-- The loop of `fdt_get_address` and `fdt_get_size` over the cells. -/
def readCells (m : Bytes) : ℕ → ℕ → ℕ → ℕ × ℕ
  | 0, value, result => (value, result)
  | cells + 1, value, result =>
    readCells m cells (ptrAdd value 4) ((result <<< 32 + (token m value).toNat) % WORD)

def fdtGetAddress (m : Bytes) (node : FdtScanNode) (value : ℕ) : ℕ × ℕ :=
  readCells m node.addressCells.toNat value 0

def fdtGetSize (m : Bytes) (node : FdtScanNode) (value : ℕ) : ℕ × ℕ :=
  readCells m node.sizeCells.toNat value 0

structure MemScan where
  memory : Bool
  regValue : ℕ
  regLen : ℤ
deriving DecidableEq, Repr

/-- The scan of `query_mem` with the global `g_mem_size`. -/
structure MemQuery where
  scan : MemScan
  gMemSize : ℕ
deriving DecidableEq, Repr

def memOpen : Bounded MemQuery Unit := modify fun q => { q with scan := ⟨false, 0, 0⟩ }

def memProp (m : Bytes) (prop : FdtScanProp) : Bounded MemQuery Unit := modify fun q =>
  if isText m prop.name "device_type" && isText m prop.value "memory" then
    { q with scan := { q.scan with memory := true } }
  else if isText m prop.name "reg" then
    { q with scan := { q.scan with regValue := prop.value, regLen := prop.len } }
  else q

/-- The loop of `mem_done`; `self` is the address of the function. -/
def memRanges (self : ℕ) (m : Bytes) (node : NodePtr) (stop : ℕ) : ℕ → ℕ → Bounded MemQuery ℕ
  | bound, value =>
    if wrapLong (stop - value) > 0 then
      match bound, node with
      | 0, _ => throw .outOfBound
      | bound + 1, _ :: parent :: _ => do
        let (value, base) := fdtGetAddress m parent value
        let (value, size) := fdtGetSize m parent value
        if base ≤ self ∧ self ≤ (base + size) % WORD then
          modify fun q => { q with gMemSize := size }
        memRanges self m node stop bound value
      | _ + 1, _ => throw (.stops .nullDereference)
    else pure value

def memDone (bound self : ℕ) (m : Bytes) (node : NodePtr) : Bounded MemQuery Unit := do
  let scan := (← get).scan
  let stop := ptrAdd scan.regValue (4 * scan.regLen.tdiv 4)
  if scan.memory then
    requires (scan.regValue ≠ 0 ∧ scan.regLen.tmod 4 = 0) "scan->reg_value && scan->reg_len % 4 == 0"
    let value ← memRanges self m node stop bound scan.regValue
    requires (stop = value) "end == value"

def memCb (bound self : ℕ) : FdtCb MemQuery where
  cbOpen := some fun _ _ => memOpen
  cbProp := memProp
  cbDone := some (memDone bound self)
  cbClose := none

/-- `query_mem`. -/
def queryMem (bound self fdt : ℕ) : Bounded (Scanning MemQuery) Unit := do
  modify fun s => { s with extra := { s.extra with gMemSize := 0 } }
  fdtScan bound fdt (memCb bound self)
  let s ← get
  requires (s.extra.gMemSize > 0) "g_mem_size > 0"

/-- The scan of `query_htif` with the global `htif`. -/
structure HtifQuery where
  compat : Bool
  htif : Bool
deriving DecidableEq, Repr

def htifOpen : Bounded HtifQuery Unit := modify fun q => { q with compat := false }

def htifProp (m : Bytes) (prop : FdtScanProp) : Bounded HtifQuery Unit := modify fun q =>
  if isText m prop.name "compatible" && isText m prop.value "ucb,htif0" then { q with compat := true } else q

def htifDone : Bounded HtifQuery Unit := modify fun q => if q.compat then { q with htif := true } else q

def htifCb : FdtCb HtifQuery where
  cbOpen := some fun _ _ => htifOpen
  cbProp := htifProp
  cbDone := some fun _ _ => htifDone
  cbClose := none

/-- `query_htif`. -/
def queryHtif (bound fdt : ℕ) : Bounded (Scanning HtifQuery) Unit := fdtScan bound fdt htifCb

end Pke.Model
