import Pke.Model.Vmm

/-! # Loading an application: `elf.c`

A host file is a sequence of bytes; `spike_file_pread` reads at most the bytes that are there. Headers are
decoded from the file at the offsets of the packed C structures.
-/

namespace Pke.Model

variable {σ : Type}

/-- A file of the host. -/
structure HostFile where
  size : ℕ
  byte : ℕ → UInt8

namespace HostFile

/-- The number of bytes `spike_file_pread` transfers. -/
def pread (f : HostFile) (nb off : ℕ) : ℕ := min nb (f.size - off)

/-- A little-endian field of `n` bytes. -/
def field (f : HostFile) (off : ℕ) : ℕ → ℕ
  | 0 => 0
  | n + 1 => (f.byte off).toNat + 256 * f.field (off + 1) n

end HostFile

def ELF_MAGIC : ℕ := 0x464C457F
def ELF_PROG_LOAD : ℕ := 1
def SEGMENT_READABLE : ℕ := 4
def SEGMENT_EXECUTABLE : ℕ := 1
def SEGMENT_WRITABLE : ℕ := 2

inductive ElfStatus where
  | EL_OK | EL_EIO | EL_ENOMEM | EL_NOTELF | EL_ERR
deriving DecidableEq, Repr

/-- The fields of `elf_header` that the loader uses. -/
structure ElfHeader where
  entry : ℕ
  phoff : ℕ
  phnum : ℕ

/-- The fields of `elf_prog_header` that the loader uses. -/
structure ProgHeader where
  type : ℕ
  flags : ℕ
  off : ℕ
  vaddr : ℕ
  filesz : ℕ
  memsz : ℕ

/-- `sizeof(elf_header)` and `sizeof(elf_prog_header)`. -/
def ELF_HEADER_SIZE : ℕ := 64
def PROG_HEADER_SIZE : ℕ := 56

def HostFile.progHeader (f : HostFile) (off : ℕ) : ProgHeader where
  type := f.field off 4
  flags := f.field (off + 4) 4
  off := f.field (off + 8) 8
  vaddr := f.field (off + 16) 8
  filesz := f.field (off + 32) 8
  memsz := f.field (off + 40) 8

/-- A `uint64` assigned to an `int` and passed on as a `uint64` again. -/
def throughInt (n : ℕ) : ℕ := if n % 2 ^ 32 < 2 ^ 31 then n % 2 ^ 32 else WORD - 2 ^ 32 + n % 2 ^ 32

/-- The word at index `i` of a page after `count` bytes were copied to its start. -/
def storedWord (old : ℕ → ℕ) (count : ℕ) (bytes : ℕ → ℕ) (i : ℕ) : ℕ :=
  (List.range 8).foldr (fun j rest =>
    (if 8 * i + j < count then bytes (8 * i + j) else old i / 256 ^ j % 256) + 256 * rest) 0

/-- The number of entries of a region table. -/
def REGION_SLOTS : ℕ := 256

/-- The first entry of `mapped_info` with `va == 0`, or the number of entries. -/
def freeRegion (regions : ℕ → MappedRegion) : ℕ :=
  ((List.range REGION_SLOTS).find? fun j => (regions j).va = 0).getD REGION_SLOTS

/-- `elf_alloc_mb`. -/
def elfAllocMb (env : PageEnv σ) (p elfVa size : ℕ) : Exec (Kernel σ) ℕ := do
  kassert (size < PGSIZE) "size < PGSIZE"
  let pa ← env.allocPage
  if pa = 0 then throw (.panic "uvmalloc mem alloc falied\n")
  clearPage (pa / PGSIZE)
  userVmMap env ((← get).procs p).pagetable elfVa PGSIZE pa (protToType true true true true)
  return pa

/-- The segment type that `elf_load` records for the flags of a header. -/
def segmentOf (flags : ℕ) : Option SegmentType :=
  if flags = SEGMENT_READABLE ||| SEGMENT_EXECUTABLE then some .CODE_SEGMENT
  else if flags = SEGMENT_READABLE ||| SEGMENT_WRITABLE then some .DATA_SEGMENT
  else none

/-- The body of the loop of `elf_load` for a loadable segment. `none` means that the loop goes on. -/
def loadSegment (env : PageEnv σ) (p : ℕ) (f : HostFile) (ph : ProgHeader) :
    Exec (Kernel σ) (Option ElfStatus) := do
  if ph.memsz < ph.filesz then return some .EL_ERR
  if (ph.vaddr + ph.memsz) % WORD < ph.vaddr then return some .EL_ERR
  let dest ← elfAllocMb env p ph.vaddr ph.memsz
  let count := f.pread ph.memsz ph.off
  modify fun k => k.setPage (dest / PGSIZE)
    (storedWord (k.mem (dest / PGSIZE)) count fun n => (f.byte (ph.off + n)).toNat)
  if count ≠ ph.memsz then return some ElfStatus.EL_EIO
  let j := freeRegion ((← get).procs p).regions
  modify fun k => k.setProc p fun proc =>
    { proc with regions := Function.update proc.regions j { proc.regions j with va := ph.vaddr, npages := 1 } }
  match segmentOf ph.flags with
  | none => throw (.panic "unknown program segment encountered, segment flag:%d.\n")
  | some type =>
    modify fun k => k.setProc p fun proc =>
      { proc with
        regions := Function.update proc.regions j { proc.regions j with segType := type }
        totalMappedRegion := proc.totalMappedRegion + 1 }
    return none

/-- The loop of `elf_load` from header number `i` on, with `n` headers left. -/
def elfLoadLoop (env : PageEnv σ) (p : ℕ) (f : HostFile) (ehdr : ElfHeader) :
    ℕ → ℕ → Exec (Kernel σ) ElfStatus
  | 0, _ => return .EL_OK
  | n + 1, i => do
    let off := throughInt (ehdr.phoff + PROG_HEADER_SIZE * i)
    if f.pread PROG_HEADER_SIZE off ≠ PROG_HEADER_SIZE then return ElfStatus.EL_EIO
    let ph := f.progHeader off
    if ph.type ≠ ELF_PROG_LOAD then elfLoadLoop env p f ehdr n (i + 1)
    else
      match ← loadSegment env p f ph with
      | some status => return status
      | none => elfLoadLoop env p f ehdr n (i + 1)

def elfLoad (env : PageEnv σ) (p : ℕ) (f : HostFile) (ehdr : ElfHeader) : Exec (Kernel σ) ElfStatus :=
  elfLoadLoop env p f ehdr ehdr.phnum 0

/-- The page that `elf_alloc_mb` obtains for a segment, if it returns. -/
def segmentPage (env : PageEnv σ) (p : ℕ) (ph : ProgHeader) (k : Kernel σ) : ℕ :=
  match elfAllocMb env p ph.vaddr ph.memsz k with
  | .ok dest _ => dest / PGSIZE
  | .error _ _ => 0

/-- The index in `mapped_info` that a segment is stored at and the entry there before, if the call
gets so far. -/
def segmentSlot (env : PageEnv σ) (p : ℕ) (f : HostFile) (ph : ProgHeader) (k : Kernel σ) :
    Option (ℕ × MappedRegion) :=
  if ph.memsz < ph.filesz then none
  else if (ph.vaddr + ph.memsz) % WORD < ph.vaddr then none
  else
    match elfAllocMb env p ph.vaddr ph.memsz k with
    | .error _ _ => none
    | .ok _ k =>
      if f.pread ph.memsz ph.off ≠ ph.memsz then none
      else
        let j := freeRegion (k.procs p).regions
        some (j, (k.procs p).regions j)

/-- The segments that the loop of `elf_load` loads, with the page of each. -/
def loadedSegments (env : PageEnv σ) (p : ℕ) (f : HostFile) (ehdr : ElfHeader) :
    ℕ → ℕ → Kernel σ → List (ProgHeader × ℕ)
  | 0, _, _ => []
  | n + 1, i, k =>
    let off := throughInt (ehdr.phoff + PROG_HEADER_SIZE * i)
    let ph := f.progHeader off
    if f.pread PROG_HEADER_SIZE off ≠ PROG_HEADER_SIZE then []
    else if ph.type ≠ ELF_PROG_LOAD then loadedSegments env p f ehdr n (i + 1) k
    else
      match loadSegment env p f ph k with
      | .ok none k' => (ph, segmentPage env p ph k) :: loadedSegments env p f ehdr n (i + 1) k'
      | _ => []

/-- The stores of the loop of `elf_load` into `mapped_info`: index and entry before. -/
def storedRegions (env : PageEnv σ) (p : ℕ) (f : HostFile) (ehdr : ElfHeader) :
    ℕ → ℕ → Kernel σ → List (ℕ × MappedRegion)
  | 0, _, _ => []
  | n + 1, i, k =>
    let off := throughInt (ehdr.phoff + PROG_HEADER_SIZE * i)
    let ph := f.progHeader off
    if f.pread PROG_HEADER_SIZE off ≠ PROG_HEADER_SIZE then []
    else if ph.type ≠ ELF_PROG_LOAD then storedRegions env p f ehdr n (i + 1) k
    else
      (segmentSlot env p f ph k).toList ++
        match loadSegment env p f ph k with
        | .ok none k' => storedRegions env p f ehdr n (i + 1) k'
        | _ => []

/-- `elf_init`: the header, if the file has one and starts with the magic number. -/
def elfInit (f : HostFile) : Except ElfStatus ElfHeader :=
  if f.pread ELF_HEADER_SIZE 0 ≠ ELF_HEADER_SIZE then .error ElfStatus.EL_EIO
  else if f.field 0 4 ≠ ELF_MAGIC then .error .EL_NOTELF
  else .ok { entry := f.field 24 8, phoff := f.field 32 8, phnum := f.field 56 2 }

/-- `load_bincode_from_host_elf` after the file has been opened. -/
def loadBincodeFromHostElf (env : PageEnv σ) (p : ℕ) (f : HostFile) : Exec (Kernel σ) Unit := do
  match elfInit f with
  | .error _ => throw (.panic "fail to init elfloader.\n")
  | .ok ehdr =>
    if (← elfLoad env p f ehdr) ≠ .EL_OK then throw (.panic "Fail on loading elf.\n")
    modify fun k => k.setProc p fun proc => { proc with frame := { proc.frame with epc := ehdr.entry } }

end Pke.Model
