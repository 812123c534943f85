import Pke.Proofs.HtifExchange

/-! # Console input and output

A character that the host sends is in `fromhost`, then in `htif_console_buf`, then in the local
variable of the call of `htif_console_getchar` that returns it, and no second one is sent before. A
character of `htif_console_putchar` is one command.
-/

namespace Pke.Proofs

open Pke.Lib Pke.Model

/-- The character of an answer to a read. -/
def typed? : HtifEvent → Option ℤ
  | .sent message => if header message = READ then some (letter message) else none
  | _ => none

/-- A character that `htif_console_getchar` returned; negative results are none. -/
def read? : HtifEvent → Option ℤ
  | .getchar ch => if 0 ≤ ch then some ch else none
  | _ => none

/-- The character of a call of `htif_console_putchar` that returned. -/
def printed? : HtifEvent → Option (BitVec 8)
  | .putchar ch => some ch
  | _ => none

/-- The character that a command writes. -/
def written? (command : Word) : Option (BitVec 8) :=
  if header command = WRITE then some ((FROMHOST_DATA command).setWidth 8) else none

/-- The character that a value of `htif_console_buf` stands for. -/
def buffered (z : ℤ) : List ℤ := if 0 < z then [z - 1] else []

private theorem buffered_letter (message : Word) : buffered (1 + letter message) = [letter message] := by
  have full : (0 : ℤ) ≤ letter message := Int.natCast_nonneg _
  rw [buffered, if_pos (by omega), show 1 + letter message - 1 = letter message by omega]

/-- The character in `fromhost`. -/
def delivered (fromhost : Word) : List ℤ := if fromhost ≠ 0 ∧ header fromhost = READ
    then [letter fromhost] else []

@[simp] theorem delivered_zero : delivered 0 = [] := rfl

private theorem delivered_of_ne {fromhost : Word} (other : header fromhost ≠ READ) : delivered fromhost = [] :=
  if_neg fun both => other both.2

/-- The character that was sent and not returned yet. -/
def unread (s : Htif) : List ℤ :=
  delivered s.fromhost ++ buffered s.consoleBuf ++ if requesting s then buffered s.ch else []

theorem unread_of_silent {s : Htif} (silent : requesting s = false) :
    unread s = delivered s.fromhost ++ buffered s.consoleBuf := by
  rw [unread, silent, if_neg Bool.false_ne_true, List.append_nil]

/-- There is at most one. -/
private theorem Exchange.unread_length {s : Htif} (inv : Exchange s) : (unread s).length ≤ 1 := by
  have short : ∀ z, (buffered z).length ≤ 1 := by
    intro z
    unfold buffered
    split_ifs
    · exact le_rfl
    · exact Nat.zero_le _
  have none : ∀ z : ℤ, z = -1 → buffered z = [] := fun z empty => by rw [empty]; rfl
  by_cases read : s.fromhost ≠ 0 ∧ header s.fromhost = READ
  · obtain ⟨empty, silent⟩ := inv.empty_of_read read.1 read.2
    rw [unread_of_silent silent, delivered, if_pos read, none _ empty]
    exact le_rfl
  · cases asks : requesting s with
    | false =>
      rw [unread_of_silent asks, delivered, if_neg read, List.nil_append]
      exact short _
    | true =>
      rw [unread, asks, delivered, if_neg read, none _ (inv.request asks).1]
      exact short _

/-- The invariant of the console. -/
structure Console (s : Htif) : Prop where
  input : s.log.filterMap typed? = unread s ++ s.log.filterMap read?
  output : s.log.filterMap printed? = (s.log.filterMap posted?).filterMap written?

namespace Console

variable {magic : Word} {s s' : Htif}

theorem start : Console .start := ⟨rfl, rfl⟩

/-- A step that neither moves a character nor ends a call. -/
private theorem keep (console : Console s) (log : s'.log = s.log) (same : unread s' = unread s) :
    Console s' := by
  obtain ⟨input, output⟩ := console
  refine ⟨?_, ?_⟩
  · rw [log, same]
    exact input
  · rw [log]
    exact output

/-- The character that is on its way stays where it is while the hart is not in `__set_tohost`. -/
private theorem silent_unread (before : requesting s = false) (behind : requesting s' = false)
    (fromhost : delivered s'.fromhost = delivered s.fromhost) (buf : s'.consoleBuf = s.consoleBuf) :
    unread s' = unread s := by
  rw [unread_of_silent before, unread_of_silent behind, fromhost, buf]

/-- An access that ends a call or stores a command outside of it, without a character. -/
private theorem input_of_silent (console : Console s) (before : requesting s = false)
    (behind : requesting s' = false) (fromhost : delivered s'.fromhost = delivered s.fromhost)
    (buf : s'.consoleBuf = s.consoleBuf) (typed : s'.log.filterMap typed? = s.log.filterMap typed?)
    (read : s'.log.filterMap read? = s.log.filterMap read?) :
    s'.log.filterMap typed? = unread s' ++ s'.log.filterMap read? := by
  rw [typed, read, silent_unread before behind fromhost buf]
  exact console.input

/-- An access between two places of the code that are both inside or both outside of `__set_tohost`. -/
private theorem move (console : Console s) {old pc : HtifPc} (here : s.pc = old)
    (post : posting pc = posting old) :
    Console (s.goto pc) := by
  refine console.keep rfl ?_
  rw [unread, unread, requesting_goto here post]
  rfl

/-- Clearing an answer of the console. -/
private theorem clear (console : Console s) {fh : Word} {site : CheckSite}
    (pc : s.pc = .clear fh site) {buf : ℤ}
    (moved : buffered buf = delivered s.fromhost ++ buffered s.consoleBuf) :
    Console ({ s with fromhost := 0, consoleBuf := buf }.goto site.resume) := by
  have post : posting site.resume = posting s.pc := by rw [posting_resume, pc, posting_clear]
  refine console.keep rfl ?_
  rw [unread, unread, ← moved, requesting, requesting]
  change delivered 0 ++ buffered buf ++ (if (posting site.resume && s.call.device == READ) = true
    then buffered s.ch else []) = _
  rw [post, delivered_zero, List.nil_append]

/-- An access of the hart keeps the invariant. -/
theorem access (console : Console s) (inv : Exchange s) (carried : Carried magic) (access : Access magic s s') :
    Console s' := by
  cases access with
  | marshal i pc =>
    have device : s.call.device = SYSCALL := inv.at_pc pc
    exact console.keep rfl (silent_unread (requesting_syscall device) (requesting_syscall device) rfl rfl)
  | free pc empty => exact console.move pc rfl
  | busy pc => exact console.move pc rfl
  | ask pc args call =>
    have device : s.call.device = SYSCALL := by rw [call]; rfl
    refine ⟨console.input_of_silent (requesting_syscall device) rfl rfl rfl rfl rfl, ?_⟩
    · have none : written? (s.call.command magic) = none := by
        rw [written?, (command_fields carried s.call).1, device]
        rfl
      change s.log.filterMap printed? = (s.call.command magic :: s.log.filterMap posted?).filterMap written?
      rw [List.filterMap_cons_none none]
      exact console.output
  | write pc ch call =>
    obtain ⟨device, data⟩ := command_fields carried s.call
    rw [call] at device data
    refine ⟨console.input_of_silent (by rw [requesting, call]; exact Bool.and_false _) rfl rfl rfl rfl rfl, ?_⟩
    · have one : written? (s.call.command magic) = some ch := by
        rw [written?, call, device, data]
        exact (if_pos rfl).trans (congrArg some (by simp [HtifCall.data]))
      change ch :: s.log.filterMap printed? =
        (s.call.command magic :: s.log.filterMap posted?).filterMap written?
      rw [List.filterMap_cons_some one, console.output]
  | request pc call =>
    have asks : requesting s = true := by rw [requesting, pc, call]; rfl
    have empty := (inv.request asks).1
    have gone : delivered s.fromhost = [] := by
      refine if_neg fun both => ?_
      rw [(inv.empty_of_read both.1 both.2).2] at asks
      cases asks
    refine ⟨?_, ?_⟩
    · have input := console.input
      rw [unread, asks, if_pos rfl, gone, empty] at input
      rw [unread_of_silent rfl]
      change s.log.filterMap typed? =
        (delivered s.fromhost ++ buffered s.consoleBuf) ++
        (HtifEvent.getchar (s.ch - 1) :: s.log).filterMap read?
      rw [gone, empty, input]
      by_cases full : 0 < s.ch
      · have some : read? (.getchar (s.ch - 1)) = some (s.ch - 1) := if_pos (by omega)
        rw [List.filterMap_cons_some some, show buffered s.ch = [s.ch - 1] from if_pos full]
        rfl
      · have none : read? (.getchar (s.ch - 1)) = none := if_neg (by omega)
        rw [List.filterMap_cons_none none, show buffered s.ch = [] from if_neg full]
        rfl
    · have none : written? (s.call.command magic) = none := by
        rw [written?, (command_fields carried s.call).1, call]
        rfl
      change s.log.filterMap printed? = (s.call.command magic :: s.log.filterMap posted?).filterMap written?
      rw [List.filterMap_cons_none none]
      exact console.output
  | spin pc none => exact console
  | reply pc some own => exact console.move pc rfl
  | other pc some foreign => exact console.move pc rfl
  | accept pc =>
    obtain ⟨-, -, kind⟩ : FitsAt s .accept := inv.at_pc pc
    refine console.keep rfl (silent_unread (requesting_outside pc rfl) rfl ?_ rfl)
    exact (delivered_of_ne (by rw [kind]; decide)).symm
  | result pc =>
    exact ⟨console.input_of_silent (requesting_outside pc rfl) rfl rfl rfl rfl rfl, console.output⟩
  | nothing site pc none => exact console.move pc (posting_resume site)
  | found site pc some => exact console.move pc (posting_clear s.fromhost site)
  | read fh site pc kind =>
    obtain ⟨-, rfl, some, -, -⟩ := inv.cleared pc
    refine console.clear pc ?_
    rw [delivered, if_pos ⟨some, kind⟩, (inv.empty_of_read some kind).1, buffered_letter]
    rfl
  | written fh site pc kind =>
    obtain ⟨-, rfl, some, -, -⟩ := inv.cleared pc
    refine console.clear pc ?_
    rw [delivered_of_ne (by rw [kind]; decide), List.nil_append]
  | fail fh site pc noRead noWrite =>
    obtain ⟨-, -, -, -, read | write⟩ := inv.cleared pc
    · exact absurd read noRead
    · exact absurd write noWrite
  | fetch pc full =>
    have device : s.call.device = READ := inv.at_pc pc
    refine console.keep rfl ?_
    rw [unread_of_silent (requesting_outside pc rfl)]
    change delivered s.fromhost ++ buffered (-1) ++
      (if (posting .setTohost && s.call.device == READ) = true then
      buffered s.consoleBuf else []) = _
    have on : (posting .setTohost && READ == READ) = true := rfl
    rw [device, if_pos on]
    exact congrArg (· ++ buffered s.consoleBuf) (List.append_nil _)
  | dry pc empty =>
    have none : read? (.getchar (s.consoleBuf - 1)) = none := if_neg (by omega)
    exact ⟨console.input_of_silent (requesting_outside pc rfl) rfl rfl rfl rfl
      (List.filterMap_cons_none none), console.output⟩

/-- Every step keeps the invariant. -/
theorem step (console : Console s) (inv : Exchange s) (carried : Carried magic) {op : HtifOp}
    (honest : Honest s op) (step : s.step magic op = some s') : Console s' := by
  cases op with
  | call call =>
    rw [Htif.step] at step
    split_ifs at step with idle
    cases step
    have silent : requesting s = false := requesting_outside idle rfl
    cases call with
    | _ => exact console.keep rfl (silent_unread silent rfl rfl rfl)
  | go => exact console.access inv carried (.of_go step)
  | receive =>
    rw [Htif.step] at step
    split_ifs at step with empty
    cases step
    exact ⟨console.input, console.output⟩
  | execute command result =>
    rw [Htif.step] at step
    split_ifs at step with member device
    · cases step
      exact ⟨console.input, console.output⟩
    · cases step
      exact console.keep rfl rfl
  | send message =>
    cases step
    obtain ⟨free, nonzero, -⟩ := honest
    refine ⟨?_, console.output⟩
    have input := console.input
    rw [unread, free, delivered_zero, List.nil_append] at input
    change (HtifEvent.sent message :: s.log).filterMap typed? = delivered message ++ buffered s.consoleBuf ++
      (if requesting s = true then buffered s.ch else []) ++ s.log.filterMap read?
    by_cases read : header message = READ
    · have some : typed? (.sent message) = some (letter message) := if_pos read
      rw [List.filterMap_cons_some some, input, show delivered message = [letter message]
        from if_pos ⟨nonzero, read⟩]
      rfl
    · have none : typed? (.sent message) = none := if_neg read
      rw [List.filterMap_cons_none none, input, delivered_of_ne read, List.nil_append]

end Console

/-- In every interleaving with a host that only answers, the characters that the host sends are
those that `htif_console_getchar` returned, in their order, and at most one that it has yet to
return; the characters of the calls of `htif_console_putchar` that returned are those that the host
took, in their order, and those still in `tohost`. -/
theorem console_exact {magic : Word} (carried : Carried magic) {ops : List HtifOp} {s : Htif}
    (run : Run (Guarded Honest (HtifStep magic)) .start ops s) :
    (s.log.filterMap typed? = unread s ++ s.log.filterMap read? ∧ (unread s).length ≤ 1) ∧
      s.log.filterMap printed? = (mail s.tohost ++ s.log.filterMap received?).filterMap written? := by
  have keep : ∀ (s : Htif) (op : HtifOp) (s' : Htif), Exchange s ∧
      Console s → Guarded Honest (HtifStep magic) s op s' →
      Exchange s' ∧ Console s' := by
    rintro s op s' ⟨inv, console⟩ ⟨honest, step⟩
    exact ⟨inv.step carried honest step, console.step inv carried honest step⟩
  obtain ⟨inv, console⟩ := run.invariant keep ⟨.start, .start⟩
  refine ⟨⟨console.input, inv.unread_length⟩, ?_⟩
  rw [← inv.order]
  exact console.output

/-- A character is asked for, arrives, and is read by the next call. -/
private theorem typed_run : ∃ s, Run (Guarded Honest (HtifStep 0x80010000)) .start
    [.call .consoleGetchar, .go, .go, .go, .go, .receive, .execute (TOHOST_CMD 1 0 0) 0,
      .send (TOHOST_CMD 1 0 97), .call .consoleGetchar, .go, .go, .go, .go, .go] s ∧
      s.log.filterMap read? = [97] :=
  ⟨_, .cons ⟨trivial, rfl⟩ <| .cons ⟨trivial, rfl⟩ <| .cons ⟨trivial, rfl⟩ <| .cons ⟨trivial, rfl⟩ <|
    .cons ⟨trivial, rfl⟩ <| .cons ⟨trivial, rfl⟩ <| .cons ⟨trivial, rfl⟩ <|
    .cons ⟨⟨rfl, by decide, _, List.mem_cons_self, rfl⟩, rfl⟩ <| .cons ⟨trivial, rfl⟩ <| .cons ⟨trivial, rfl⟩ <|
    .cons ⟨trivial, rfl⟩ <| .cons ⟨trivial, rfl⟩ <| .cons ⟨trivial, rfl⟩ <| .cons ⟨trivial, rfl⟩ (.nil _), rfl⟩

theorem console_exact_small : ∃ s : Htif, s.log.filterMap read? = [97] ∧
    (s.log.filterMap typed? = unread s ++ s.log.filterMap read? ∧ (unread s).length ≤ 1) ∧
      s.log.filterMap printed? = (mail s.tohost ++ s.log.filterMap received?).filterMap written? := by
  obtain ⟨s, run, read⟩ := typed_run
  exact ⟨s, read, console_exact carried_small run⟩

end Pke.Proofs
