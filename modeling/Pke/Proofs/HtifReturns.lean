import Pke.Proofs.HtifConsole

/-! # The calls of the interface can always return

Hart and host each wait for a word to become zero. From every state of an interleaving the host can
go on so that the call of the hart returns: a hart that waits for `tohost` clears the answers of the
console meanwhile, and one that waits for its own answer clears the others.
-/

namespace Pke.Proofs

open Pke.Lib Pke.Model

/-- The step is no new call. -/
def Continues : HtifOp → Prop
  | .call _ => False
  | _ => True

/-- Hart and host can go on from here, without a new call, to the return of the call. -/
def CanReturn (magic : Word) (s : Htif) : Prop :=
  ∃ ops s', Run (Guarded Honest (HtifStep magic)) s ops s' ∧ s'.pc = .idle ∧ ∀ op ∈ ops, Continues op

variable {magic : Word} {s s' : Htif}

theorem CanReturn.idle (here : s.pc = .idle) : CanReturn magic s := ⟨[], s, .nil s, here, by simp⟩

/-- One step further away. -/
theorem CanReturn.of_step (carried : Carried magic) (inv : Exchange s) (op : HtifOp) (honest : Honest s op)
    (goes : Continues op) (step : s.step magic op = some s') (rest : Exchange s' → CanReturn magic s') :
    CanReturn magic s := by
  obtain ⟨ops, last, run, idle, others⟩ := rest (inv.step carried honest step)
  refine ⟨op :: ops, last, .cons ⟨honest, step⟩ run, idle, fun other member => ?_⟩
  rcases List.mem_cons.mp member with rfl | later
  · exact goes
  · exact others other later

/-- An access of the hart. -/
theorem CanReturn.of_go (carried : Carried magic) (inv : Exchange s) (step : s.go magic = some s')
    (rest : Exchange s' → CanReturn magic s') : CanReturn magic s :=
  .of_step carried inv .go trivial trivial step rest

namespace Exchange

private theorem returns_result (inv : Exchange s) (carried : Carried magic) (pc : s.pc = .result) :
    CanReturn magic s :=
  .of_go carried inv (by rw [Htif.go, pc]) fun _ => .idle rfl

private theorem returns_accept (inv : Exchange s) (carried : Carried magic) (pc : s.pc = .accept) :
    CanReturn magic s :=
  .of_go carried inv (by rw [Htif.go, pc]) fun inv => inv.returns_result carried rfl

/-- The answer to the system call is in `fromhost`. -/
theorem returns_answered (inv : Exchange s) (carried : Carried magic) (pc : s.pc = .await)
    (some : s.fromhost ≠ 0) (kind : header s.fromhost = SYSCALL) : CanReturn magic s := by
  have device : s.call.device = SYSCALL := inv.at_pc pc
  have own : FROMHOST_DEV s.fromhost = s.call.device.1 ∧ FROMHOST_CMD s.fromhost = s.call.device.2 := by
    rw [device]
    exact ⟨congrArg Prod.fst kind, congrArg Prod.snd kind⟩
  refine .of_go carried inv (by simp only [Htif.go, pc, if_neg some, if_pos own]; rfl) fun inv => ?_
  exact inv.returns_accept carried rfl

/-- The system call is executed, and `fromhost` is free. -/
theorem returns_executed (inv : Exchange s) (carried : Carried magic) (pc : s.pc = .await)
    (free : s.fromhost = 0) (listed : SYSCALL ∈ answered s) : CanReturn magic s := by
  have member : SYSCALL ∈ s.done.map header := by
    rw [answered, free, mail_zero, List.append_nil] at listed
    exact listed
  obtain ⟨command, inDone, kind⟩ := List.mem_map.mp member
  have answers : Answers s 1 := ⟨free, by decide, command, inDone, kind⟩
  refine .of_step carried inv (.send 1) answers trivial rfl fun inv => ?_
  exact inv.returns_answered carried pc (show (1 : Word) ≠ 0 by decide)
    (show header 1 = SYSCALL by decide)

/-- The host took the system call. -/
theorem returns_taken (inv : Exchange s) (carried : Carried magic) (pc : s.pc = .await) (free : s.fromhost = 0)
    (listed : SYSCALL ∈ s.taken.map header) : CanReturn magic s := by
  obtain ⟨command, member, kind⟩ := List.mem_map.mp listed
  have device : FROMHOST_DEV command = 0 := congrArg Prod.fst kind
  have step : s.step magic (.execute command 0) =
      some { ({ s with taken := s.taken.erase command, done := s.done ++ [command] } : Htif).record
        (.executed s.magicMem 0) with
        magicMem := Function.update s.magicMem 0 0 } := by
    simp only [Htif.step, if_pos member, if_pos device]
  refine .of_step carried inv (.execute command 0) trivial trivial step fun inv =>
    inv.returns_executed carried pc free ?_
  change SYSCALL ∈ answered { s with done := s.done ++ [command] }
  rw [answered_execute, kind]
  exact Multiset.mem_cons_self _ _

/-- The hart waits for the answer, and `fromhost` is free. -/
theorem returns_await (inv : Exchange s) (carried : Carried magic) (pc : s.pc = .await)
    (free : s.fromhost = 0) :
    CanReturn magic s := by
  have listed : SYSCALL ∈ asked s + answered s := by
    rw [← Multiset.count_pos, inv.calls, pc]
    exact Nat.one_pos
  rcases Multiset.mem_add.mp listed with inAsked | executed
  · rcases List.mem_append.mp (List.map_append ▸ (show SYSCALL ∈ (mail s.tohost ++ s.taken).map header
      from inAsked)) with
      posted | taken
    · by_cases empty : s.tohost = 0
      · rw [empty] at posted
        cases posted
      · refine .of_step carried inv .receive trivial trivial (by rw [Htif.step, if_neg empty]) fun inv => ?_
        refine inv.returns_taken carried pc free ?_
        rw [mail_of_ne empty] at posted
        change SYSCALL ∈ (s.taken ++ [s.tohost]).map header
        rw [List.map_append]
        exact List.mem_append_right _ posted
    · exact inv.returns_taken carried pc free taken
  · exact inv.returns_executed carried pc free executed

/-- An answer of the console is cleared. -/
theorem returns_clear (inv : Exchange s) (carried : Carried magic) {fh : Word} {site : CheckSite}
    (pc : s.pc = .clear fh site) (rest : ∀ s' : Htif, Exchange s' → s'.pc = site.resume → s'.fromhost = 0 →
      CanReturn magic s') : CanReturn magic s := by
  obtain ⟨-, -, -, -, read | write⟩ := inv.cleared pc
  · have console : FROMHOST_DEV fh = 1 := congrArg Prod.fst read
    have kind : FROMHOST_CMD fh = 0 := congrArg Prod.snd read
    exact .of_go carried inv (by simp only [Htif.go, pc, if_pos console, if_pos kind]; rfl) fun inv =>
      rest _ inv rfl rfl
  · have console : FROMHOST_DEV fh = 1 := congrArg Prod.fst write
    have kind : FROMHOST_CMD fh = 1 := congrArg Prod.snd write
    have other : ¬ FROMHOST_CMD fh = 0 := by rw [kind]; decide
    exact .of_go carried inv (by simp only [Htif.go, pc, if_pos console, if_neg other, if_pos kind]; rfl)
      fun inv => rest _ inv rfl rfl

/-- `__check_fromhost` returns with `fromhost` free. -/
theorem returns_check (inv : Exchange s) (carried : Carried magic) {site : CheckSite} (pc : s.pc = .check site)
    (rest : ∀ s' : Htif, Exchange s' → s'.pc = site.resume → s'.fromhost = 0 → CanReturn magic s') :
    CanReturn magic s := by
  by_cases none : s.fromhost = 0
  · have step : s.go magic = some (s.goto site.resume) := by simp only [Htif.go, pc, if_pos none]
    exact .of_go carried inv step fun inv => rest _ inv rfl none
  · have step : s.go magic = some (s.goto (.clear s.fromhost site)) := by simp only [Htif.go, pc, if_neg none]
    exact .of_go carried inv step fun inv => inv.returns_clear carried rfl rest

/-- The hart waits for the answer of its system call. -/
theorem returns_syscall (inv : Exchange s) (carried : Carried magic) (pc : s.pc = .await) :
    CanReturn magic s := by
  have device : s.call.device = SYSCALL := inv.at_pc pc
  by_cases none : s.fromhost = 0
  · exact inv.returns_await carried pc none
  · by_cases kind : header s.fromhost = SYSCALL
    · exact inv.returns_answered carried pc none kind
    · have foreign : ¬ (FROMHOST_DEV s.fromhost = s.call.device.1 ∧
        FROMHOST_CMD s.fromhost = s.call.device.2) := by
        rw [device]
        exact fun same => kind (Prod.ext same.1 same.2)
      refine .of_go carried inv (by simp only [Htif.go, pc, if_neg none, if_neg foreign]; rfl) fun inv => ?_
      exact inv.returns_check carried rfl fun s' inv here free => inv.returns_await carried here free

/-- The store to `tohost` is next. -/
theorem returns_post (inv : Exchange s) (carried : Carried magic) (pc : s.pc = .post) : CanReturn magic s := by
  cases call : s.call with
  | frontendSyscall args =>
    have step : s.go magic = some ({ s.record (.posted (s.call.command magic))
      with tohost := s.call.command magic }.goto .await) := by
      simp only [Htif.go, pc, Htif.record, call]
    exact .of_go carried inv step fun inv => inv.returns_syscall carried rfl
  | consolePutchar ch =>
    have step : s.go magic = some (({ s.record (.posted (s.call.command magic))
      with tohost := s.call.command magic }.record
        (.putchar ch)).goto .idle) := by
      simp only [Htif.go, pc, Htif.record, call]
    exact .of_go carried inv step fun _ => .idle rfl
  | consoleGetchar =>
    have step : s.go magic = some (({ s.record (.posted (s.call.command magic))
      with tohost := s.call.command magic }.record
        (.getchar (s.ch - 1))).goto .idle) := by
      simp only [Htif.go, pc, Htif.record, call]
    exact .of_go carried inv step fun _ => .idle rfl

/-- The hart waits for `tohost`. -/
theorem returns_setTohost (inv : Exchange s) (carried : Carried magic) (pc : s.pc = .setTohost) :
    CanReturn magic s := by
  have free : ∀ s' : Htif, Exchange s' → s'.pc = .setTohost → s'.tohost = 0 → CanReturn magic s' := by
    intro s' inv here empty
    have step : s'.go magic = some (s'.goto .post) := by simp only [Htif.go, here, if_pos empty]
    exact .of_go carried inv step fun inv => inv.returns_post carried rfl
  by_cases empty : s.tohost = 0
  · exact free s inv pc empty
  · have step : s.step magic .receive =
        some { s.record (.received s.tohost) with tohost := 0, taken := s.taken ++ [s.tohost] } :=
      if_neg empty
    exact .of_step carried inv .receive trivial trivial step fun inv => free _ inv pc rfl

/-- `htif_console_getchar` looks at its buffer. -/
theorem returns_console (inv : Exchange s) (carried : Carried magic) (pc : s.pc = .console) :
    CanReturn magic s := by
  by_cases full : 0 ≤ s.consoleBuf
  · have step : s.go magic = some ({ s with ch := s.consoleBuf, consoleBuf := -1 }.goto .setTohost) := by
      simp only [Htif.go, pc, if_pos full]
    exact .of_go carried inv step fun inv => inv.returns_setTohost carried rfl
  · have step : s.go magic = some ((s.record (.getchar (s.consoleBuf - 1))).goto .idle) := by
      simp only [Htif.go, pc, if_neg full]
    exact .of_go carried inv step fun _ => .idle rfl

/-- Where `__check_fromhost` returns to. -/
theorem returns_resume (inv : Exchange s) (carried : Carried magic) {site : CheckSite}
    (pc : s.pc = site.resume) :
    CanReturn magic s := by
  cases site with
  | setTohost => exact inv.returns_setTohost carried pc
  | doTohostFromhost => exact inv.returns_syscall carried pc
  | consoleGetchar => exact inv.returns_console carried pc

/-- The arguments are stored one after the other. -/
private theorem returns_marshal (inv : Exchange s) (carried : Carried magic) {i : Fin 8}
    (pc : s.pc = .marshal i) : CanReturn magic s := by
  induction left : 7 - i.val generalizing s i with
  | zero =>
    have last : i = 7 := by omega
    have step : s.go magic = some ({ s with magicMem := Function.update s.magicMem i (s.call.args i) }.goto
      .setTohost) := by
      simp only [Htif.go, pc, if_pos last]
    exact .of_go carried inv step fun inv => inv.returns_setTohost carried rfl
  | succ n ih =>
    have more : ¬ i = 7 := by omega
    have step : s.go magic = some ({ s with magicMem := Function.update s.magicMem i (s.call.args i) }.goto
      (.marshal (i + 1))) := by
      simp only [Htif.go, pc, if_neg more]
    exact .of_go carried inv step fun inv => ih inv rfl (by omega)

/-- From every state that keeps the invariant. -/
theorem returns (inv : Exchange s) (carried : Carried magic) : CanReturn magic s := by
  cases pc : s.pc with
  | idle => exact .idle pc
  | marshal i => exact inv.returns_marshal carried pc
  | setTohost => exact inv.returns_setTohost carried pc
  | post => exact inv.returns_post carried pc
  | await => exact inv.returns_syscall carried pc
  | accept => exact inv.returns_accept carried pc
  | result => exact inv.returns_result carried pc
  | check site => exact inv.returns_check carried pc fun s' inv here _ => inv.returns_resume carried here
  | clear fh site => exact inv.returns_clear carried pc fun s' inv here _ => inv.returns_resume carried here
  | console => exact inv.returns_console carried pc
  | failed => exact (inv.at_pc pc).elim

end Exchange

/-- In every interleaving with a host that only answers, the call underway is never stuck: hart and
host can go on, without a new call, until it returns. -/
theorem htif_never_stuck (carried : Carried magic) {ops : List HtifOp}
    (run : Run (Guarded Honest (HtifStep magic)) .start ops s) :
    CanReturn magic s := by
  obtain ⟨inv, -⟩ := exchange_run carried run
  exact inv.returns carried

/-- A hart that waits for the answer to a system call. -/
private theorem waiting_run : ∃ s, Run (Guarded Honest (HtifStep 0x80010000)) .start
    [.call (.frontendSyscall fun _ => 64), .go, .go, .go, .go, .go, .go, .go, .go, .go, .go] s ∧
    s.pc = .await :=
  ⟨_, .cons ⟨trivial, rfl⟩ <| .cons ⟨trivial, rfl⟩ <| .cons ⟨trivial, rfl⟩ <| .cons ⟨trivial, rfl⟩ <|
    .cons ⟨trivial, rfl⟩ <| .cons ⟨trivial, rfl⟩ <| .cons ⟨trivial, rfl⟩ <| .cons ⟨trivial, rfl⟩ <|
    .cons ⟨trivial, rfl⟩ <| .cons ⟨trivial, rfl⟩ <| .cons ⟨trivial, rfl⟩ (.nil _), rfl⟩

theorem htif_never_stuck_small : ∃ s : Htif, s.pc = .await ∧ CanReturn 0x80010000 s := by
  obtain ⟨s, run, waits⟩ := waiting_run
  exact ⟨s, waits, htif_never_stuck carried_small run⟩

end Pke.Proofs
