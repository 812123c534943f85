import Pke.Model.TrapVector

/-! # The Host-Target Interface

`spike_htif.c`, and `frontend_syscall` of `spike_utils.c`. A hart and the host share the words
`tohost` and `fromhost` and the array `magic_mem`. Each access of the hart to one of them is a step
of its own, and the host can act between any two; what it does is its own choice. One hart makes the
calls, so the two locks around them are left out. `log` is a history variable (newest first) that no
step reads.
-/

namespace Pke.Model

def TOHOST_CMD (dev cmd payload : Word) : Word := dev <<< 56 ||| cmd <<< 48 ||| payload

def FROMHOST_DEV (message : Word) : Word := message >>> 56

def FROMHOST_CMD (message : Word) : Word := message <<< 8 >>> 56

def FROMHOST_DATA (message : Word) : Word := message <<< 16 >>> 16

/-- The device of a message and its command. -/
def header (message : Word) : Word × Word := (FROMHOST_DEV message, FROMHOST_CMD message)

/-- The calls of the interface. The arguments of `frontend_syscall` are `n` and `a0` to `a6`. -/
inductive HtifCall where
  | frontendSyscall (args : Fin 8 → Word)
  | consolePutchar (ch : BitVec 8)
  | consoleGetchar
deriving DecidableEq

namespace HtifCall

def args : HtifCall → Fin 8 → Word
  | .frontendSyscall args => args
  | _ => fun _ => 0

/-- The arguments `dev` and `cmd` of `__set_tohost`. -/
def device : HtifCall → Word × Word
  | .frontendSyscall _ => (0, 0)
  | .consolePutchar _ => (1, 1)
  | .consoleGetchar => (1, 0)

/-- The argument `data` of `__set_tohost`, for `magic_mem` at the address `magic`. -/
def data (magic : Word) : HtifCall → Word
  | .frontendSyscall _ => magic
  | .consolePutchar ch => ch.setWidth 64
  | .consoleGetchar => 0

def command (magic : Word) (call : HtifCall) : Word := TOHOST_CMD call.device.1 call.device.2 (call.data magic)

end HtifCall

/-- The functions that call `__check_fromhost`. -/
inductive CheckSite where
  | setTohost
  | doTohostFromhost
  | consoleGetchar
deriving DecidableEq, Repr

/-- The next access of the hart. -/
inductive HtifPc where
  | idle
  /-- The store to `magic_mem[i]`. -/
  | marshal (i : Fin 8)
  /-- The load in `while (tohost)`. -/
  | setTohost
  /-- The store to `tohost`. -/
  | post
  /-- The load in the loop of `do_tohost_fromhost`. -/
  | await
  /-- The store to `fromhost` behind it. -/
  | accept
  /-- The load of `magic_mem[0]`. -/
  | result
  /-- The load in `__check_fromhost`. -/
  | check (site : CheckSite)
  /-- The store to `fromhost` behind it. -/
  | clear (fh : Word) (site : CheckSite)
  /-- The load of `htif_console_buf` in `htif_console_getchar`. -/
  | console
  /-- An assertion of `__check_fromhost` failed. -/
  | failed
deriving DecidableEq

/-- Where a hart goes on after `__check_fromhost`. -/
def CheckSite.resume : CheckSite → HtifPc
  | .setTohost => .setTohost
  | .doTohostFromhost => .await
  | .consoleGetchar => .console

/-- What the history variable records: commands stored by the hart and taken by the host, system
calls with the arguments that the host found and its result, messages of the host, and calls that
return. -/
inductive HtifEvent where
  | posted (command : Word)
  | received (command : Word)
  | executed (args : Fin 8 → Word) (result : Word)
  | sent (message : Word)
  | syscall (args : Fin 8 → Word) (result : Word)
  | putchar (ch : BitVec 8)
  | getchar (ch : ℤ)
deriving DecidableEq

/-- `taken` are the commands that the host has not executed yet, and `done` those that it has not
answered yet. `ch` is the local variable of `htif_console_getchar`. -/
structure Htif where
  tohost : Word
  fromhost : Word
  magicMem : Fin 8 → Word
  consoleBuf : ℤ
  pc : HtifPc
  call : HtifCall
  ch : ℤ
  taken : List Word
  done : List Word
  log : List HtifEvent

/-- The steps: a call, the next access of the hart, and what the host does. -/
inductive HtifOp where
  | call (call : HtifCall)
  | go
  | receive
  | execute (command result : Word)
  | send (message : Word)

namespace Htif

def start : Htif where
  tohost := 0
  fromhost := 0
  magicMem _ := 0
  consoleBuf := 0
  pc := .idle
  call := .consoleGetchar
  ch := 0
  taken := []
  done := []
  log := []

def goto (s : Htif) (pc : HtifPc) : Htif := { s with pc }

def record (s : Htif) (e : HtifEvent) : Htif := { s with log := e :: s.log }

/-- The result of a system call. -/
def reply (s : Htif) : Word := s.magicMem 0

/-- The first access of a call. -/
def enter (s : Htif) (call : HtifCall) : Htif :=
  match call with
  | .frontendSyscall _ => { s with call, pc := .marshal 0 }
  | .consolePutchar _ => { s with call, pc := .setTohost }
  | .consoleGetchar => { s with call, pc := .check .consoleGetchar }

/-- The next access of the hart, with `magic_mem` at the address `magic`. -/
def go (magic : Word) (s : Htif) : Option Htif :=
  match s.pc with
  | .marshal i =>
    let s := { s with magicMem := Function.update s.magicMem i (s.call.args i) }
    some (s.goto (if i = 7 then .setTohost else .marshal (i + 1)))
  | .setTohost => some (s.goto (if s.tohost = 0 then .post else .check .setTohost))
  | .post =>
    let command := s.call.command magic
    let s := { s.record (.posted command) with tohost := command }
    match s.call with
    | .frontendSyscall _ => some (s.goto .await)
    | .consolePutchar ch => some ((s.record (.putchar ch)).goto .idle)
    | .consoleGetchar => some ((s.record (.getchar (s.ch - 1))).goto .idle)
  | .await =>
    let fh := s.fromhost
    if fh = 0 then some s
    else if FROMHOST_DEV fh = s.call.device.1 ∧ FROMHOST_CMD fh = s.call.device.2 then some (s.goto .accept)
    else some (s.goto (.check .doTohostFromhost))
  | .accept => some ({ s with fromhost := 0 }.goto .result)
  | .result => some ((s.record (.syscall s.call.args s.reply)).goto .idle)
  | .check site => some (s.goto (if s.fromhost = 0 then site.resume else .clear s.fromhost site))
  | .clear fh site =>
    let s := { s with fromhost := 0 }
    if FROMHOST_DEV fh = 1 then
      if FROMHOST_CMD fh = 0 then
        some ({ s with consoleBuf := 1 + ((FROMHOST_DATA fh).setWidth 8).toNat }.goto site.resume)
      else if FROMHOST_CMD fh = 1 then some (s.goto site.resume)
      else some (s.goto .failed)
    else some (s.goto .failed)
  | .console =>
    if 0 ≤ s.consoleBuf then some ({ s with ch := s.consoleBuf, consoleBuf := -1 }.goto .setTohost)
    else some ((s.record (.getchar (s.consoleBuf - 1))).goto .idle)
  | .idle => none
  | .failed => none

/-- One step. The host finds the arguments of a system call in `magic_mem`, and stores the result there. -/
def step (magic : Word) (s : Htif) : HtifOp → Option Htif
  | .call call => if s.pc = .idle then some (s.enter call) else none
  | .go => s.go magic
  | .receive =>
    if s.tohost = 0 then none
    else some { s.record (.received s.tohost) with tohost := 0, taken := s.taken ++ [s.tohost] }
  | .execute command result =>
    if command ∈ s.taken then
      let s := { s with taken := s.taken.erase command, done := s.done ++ [command] }
      if FROMHOST_DEV command = 0 then
        some { s.record (.executed s.magicMem result) with magicMem := Function.update s.magicMem 0 result }
      else some s
    else none
  | .send message =>
    some { s.record (.sent message) with
      fromhost := message, done := s.done.eraseP fun command => header command = header message }

end Htif

end Pke.Model
