import RefMachine.Proofs.Codec.Reader
import RefMachine.Proofs.Codec.Writer

/-!
# Sinks that fill up and sources that break

A sink that fills up holds the front part of what an unbounded sink would hold, and whether it fills up or an operand is
refused is decided by the number of bytes before that operand (`writing_bounded`).

A source that breaks is read like one that ends there, and only the error tells the two apart (`reading_broken`). The
reader asks for its bytes one after another, so this has to be shown for one byte only. There are two cases: the source
breaks behind some of its bytes, or all of its bytes come through and it ends before it would break.
-/

namespace RefMachine

/-! ## Bounded sinks -/

namespace Encoder

variable {e : Expression} {c : Nat}

theorem endState_refuse (code : List Instruction) (sink : Sink) : endState (refuse code sink) = sink := by
  unfold refuse
  cases code.find? (fun i => !i.fits) <;> rfl

theorem outcome_refuse_ne_sinkFull (code : List Instruction) (sink : Sink) :
    outcome (refuse code sink) ≠ .error .sinkFull := by
  unfold refuse
  cases code.find? (fun i => !i.fits) <;> rintro ⟨⟩

theorem outcome_refuse_eq_ok_iff {code : List Instruction} {sink : Sink} :
    outcome (refuse code sink) = .ok () ↔ ∀ i ∈ code, i.fits = true := by
  constructor
  · intro hrun
    cases hfind : code.find? (fun i => !i.fits) with
    | none => simpa using hfind
    | some i =>
      rw [refuse_of_misfit hfind] at hrun
      cases hrun
  · intro hfits
    rw [refuse_of_fits hfits]
    rfl

theorem writeExpression_of_room (hcount : e.code.length ≤ 0x7FFFFFFF) (hroom : e.fittingBytes.length ≤ c) :
    writeExpression e ⟨#[], some c⟩ = refuse e.code ⟨e.fittingBytes.toArray, some c⟩ := by
  rw [writeExpression_eq hcount, bind_apply_of_ok (write_of_room hroom)]
  simp

theorem writeExpression_of_excess (hcount : e.code.length ≤ 0x7FFFFFFF) (hroom : c < e.fittingBytes.length) :
    writeExpression e ⟨#[], some c⟩ = .error .sinkFull ⟨(e.fittingBytes.take c).toArray, some c⟩ := by
  rw [writeExpression_eq hcount, bind_apply_of_error (write_of_excess hroom)]
  simp

end Encoder

/-- **Bounded sinks.** In a sink that holds `c` bytes, `writeExpression` stores the first `c` of the `fittingBytes`, and
finds the sink full exactly if there are more. If not, it succeeds exactly if all operands fit, and else refuses the
first that does not. -/
theorem writing_bounded (e : Expression) (hcount : e.code.length ≤ 0x7FFFFFFF) (c : Nat) :
    (endState (Encoder.writeExpression e ⟨#[], some c⟩)).stored.toList =
        e.fittingBytes.take (min c e.fittingBytes.length) ∧
    (outcome (Encoder.writeExpression e ⟨#[], some c⟩) = .error .sinkFull ↔ c < e.fittingBytes.length) ∧
    (e.fittingBytes.length ≤ c →
      (outcome (Encoder.writeExpression e ⟨#[], some c⟩) = .ok () ↔ ∀ i ∈ e.code, i.fits = true) ∧
        ∀ i, e.code.find? (fun i => !i.fits) = some i →
          outcome (Encoder.writeExpression e ⟨#[], some c⟩) = .error (.operandMismatch i.opcode i.operand)) := by
  by_cases hroom : e.fittingBytes.length ≤ c
  · rw [Encoder.writeExpression_of_room hcount hroom, Encoder.endState_refuse, Nat.min_eq_right hroom, List.take_length]
    refine ⟨rfl, ?_, fun _ => ⟨Encoder.outcome_refuse_eq_ok_iff, fun i hfind => ?_⟩⟩
    · have hne := Encoder.outcome_refuse_ne_sinkFull e.code ⟨e.fittingBytes.toArray, some c⟩
      simp only [hne, false_iff]
      omega
    · rw [Encoder.refuse_of_misfit hfind]
      rfl
  · have hfull := Nat.lt_of_not_le hroom
    rw [Encoder.writeExpression_of_excess hcount hfull, Nat.min_eq_left (Nat.le_of_lt hfull)]
    exact ⟨rfl, iff_of_true rfl hfull, fun hle => absurd hle hroom⟩

/-- A sink that is full behind an operand of eight bytes, which an operand that does not fit follows, and a sink that is
full in the middle of the eight. -/
theorem writing_bounded_full :
    let e : Expression := ⟨⟨9⟩, [.nop, .loadInteger 0x0102, ⟨.nop, .integer 0⟩, .loadBoolean true]⟩
    let r := Encoder.writeExpression e ⟨#[], some 18⟩
    let r' := Encoder.writeExpression e ⟨#[], some 12⟩
    e.code.length ≤ 0x7FFFFFFF ∧
      (endState r).stored.toList = [9, 0, 0, 0, 4, 0, 0, 0, 0, 12, 2, 1, 0, 0, 0, 0, 0, 0] ∧
      outcome r = .error (.operandMismatch .nop (.integer 0)) ∧
      (endState r').stored.toList = [9, 0, 0, 0, 4, 0, 0, 0, 0, 12, 2, 1] ∧ outcome r' = .error .sinkFull := by
  intro e r r'
  have hcount : e.code.length ≤ 0x7FFFFFFF := by decide
  obtain ⟨hstored, -, hroom⟩ := writing_bounded e hcount 18
  obtain ⟨hstored', hfull, -⟩ := writing_bounded e hcount 12
  have hbytes : e.fittingBytes = [9, 0, 0, 0, 4, 0, 0, 0, 0, 12, 2, 1, 0, 0, 0, 0, 0, 0] := by decide
  rw [hbytes] at hstored hroom hstored' hfull
  exact ⟨hcount, hstored, (hroom (by decide)).2 _ rfl, hstored', hfull.mpr (by decide)⟩

/-! ## Sources that break -/

/-- The bytes come through, and then the source breaks and the others are lost. -/
def Source.breaking (lost : List UInt8) (b : Breakage) (bytes : List UInt8) : Source :=
  ⟨bytes ++ lost, some { b with after := bytes.length }⟩

/-- The bytes come through, and the source ends though more of them would come through. -/
def Source.ending (spare : Nat) (b : Breakage) (bytes : List UInt8) : Source :=
  ⟨bytes, some { b with after := bytes.length + spare + 1 }⟩

/-- What is found where a source breaks, given what is found where it ends. -/
def DecodeError.atBreak (f : ReadFailure) : DecodeError → DecodeError
  | .unexpectedEnd => .ofFailure f
  | e => e

theorem DecodeError.OfContent.atBreak_eq {e : DecodeError} (he : e.OfContent) (f : ReadFailure) : e.atBreak f = e := by
  cases e with
  | unexpectedEnd => exact he.elim
  | unknownOpcode | negativeCount | trailingBytes | brokenSource => rfl

theorem DecodeError.ofFailure_breakage (b : Breakage) : ofFailure b.failure = @brokenSource b.failure :=
  if_neg b.lasting.1

namespace Decoder

variable {α : Type} {read : Decoder α} {view : List UInt8 → Source} {fail : DecodeError → DecodeError}

theorem Bytewise.ends (hread : Bytewise read) (bytes : List UInt8) :
    Ends (fun _ rest => rest.breakage = none) (fun e _ => e.OfContent ∨ e = .unexpectedEnd) (read ⟨bytes, none⟩) := by
  induction hread generalizing bytes with
  | pure a => exact rfl
  | throw he => exact .inl he
  | readByte =>
    cases bytes with
    | nil => exact .inr rfl
    | cons byte rest => exact rfl
  | bind _ _ hread hnext =>
    refine (hread bytes).bind fun a rest hrest => ?_
    obtain ⟨bytes', breakage⟩ := rest
    obtain rfl : breakage = none := hrest
    exact hnext a bytes'

/-- How reading ends with a view of the bytes, given how it ends with the bytes alone. -/
def viewed (view : List UInt8 → Source) (fail : DecodeError → DecodeError) :
    EStateM.Result DecodeError Source α → EStateM.Result DecodeError Source α
  | .ok a rest => .ok a (view rest.bytes)
  | .error e rest => .error (fail e) (view rest.bytes)

theorem Bytewise.read_view (hread : Bytewise read) (hfail : ∀ e : DecodeError, e.OfContent → fail e = e)
    (hbyte : ∀ bytes, Decoder.readByte (view bytes) = viewed view fail (Decoder.readByte ⟨bytes, none⟩))
    (bytes : List UInt8) : read (view bytes) = viewed view fail (read ⟨bytes, none⟩) := by
  induction hread generalizing bytes with
  | pure a => rfl
  | @throw _ e he =>
    show EStateM.Result.error e _ = .error (fail e) _
    rw [hfail e he]
  | readByte => exact hbyte bytes
  | @bind _ _ read next hfirst _ hread hnext =>
    have hends := hfirst.ends bytes
    have hview := hread bytes
    cases hrun : read ⟨bytes, none⟩ with
    | ok a rest =>
      obtain ⟨bytes', breakage⟩ := rest
      obtain rfl : breakage = none := hends.of_ok hrun
      rw [hrun] at hview
      rw [bind_apply_of_ok hview, bind_apply_of_ok hrun]
      exact hnext a bytes'
    | error e rest =>
      rw [hrun] at hview
      rw [bind_apply_of_error hview, bind_apply_of_error hrun]
      rfl

theorem Bytewise.read_breaking (hread : Bytewise read) (lost : List UInt8) (b : Breakage) (bytes : List UInt8) :
    read (.breaking lost b bytes) = viewed (.breaking lost b) (DecodeError.atBreak b.failure) (read ⟨bytes, none⟩) := by
  refine hread.read_view (fun e he => he.atBreak_eq b.failure) (fun bytes => ?_) bytes
  cases bytes <;> rfl

theorem Bytewise.read_ending (hread : Bytewise read) (spare : Nat) (b : Breakage) (bytes : List UInt8) :
    read (.ending spare b bytes) = viewed (.ending spare b) id (read ⟨bytes, none⟩) := by
  refine hread.read_view (fun e _ => rfl) (fun bytes => ?_) bytes
  cases bytes with
  | nil => rfl
  | cons byte rest =>
    have hadvance : (Source.ending spare b (byte :: rest)).advance = Source.ending spare b rest := by
      have hspent : (byte :: rest).length + spare + 1 - 1 = rest.length + spare + 1 := by
        rw [List.length_cons]
        omega
      simp only [Source.advance, Source.ending, List.tail_cons, Option.map_some, hspent]
    rw [readByte_of_cons rfl rfl, hadvance]
    rfl

theorem outcome_viewed (r : EStateM.Result DecodeError Source α) :
    outcome (viewed view fail r) = (outcome r).mapError fail := by
  cases r <;> rfl

/-- A source that breaks is read like its first `b.after` bytes, but for the error where these end. -/
theorem Bytewise.outcome_broken (hread : Bytewise read) (bs : List UInt8) (b : Breakage) :
    outcome (read ⟨bs, some b⟩) =
      (outcome (read ⟨bs.take b.after, none⟩)).mapError
        (if b.after ≤ bs.length then DecodeError.atBreak b.failure else id) := by
  by_cases hk : b.after ≤ bs.length
  · have hsource : (⟨bs, some b⟩ : Source) = .breaking (bs.drop b.after) b (bs.take b.after) := by
      simp only [Source.breaking, List.take_append_drop, List.length_take, Nat.min_eq_left hk]
    rw [hsource, hread.read_breaking, outcome_viewed, if_pos hk]
  · have htake : bs.take b.after = bs := by
      apply List.take_of_length_le
      omega
    have hafter : bs.length + (b.after - bs.length - 1) + 1 = b.after := by omega
    have hsource : (⟨bs, some b⟩ : Source) = .ending (b.after - bs.length - 1) b bs := by
      simp only [Source.ending, hafter]
    rw [htake, hsource, hread.read_ending, outcome_viewed, if_neg hk]

end Decoder

theorem Expression.outcome_of_decode {bytes : List UInt8} {e : Expression} (hdecode : decode bytes = .ok e) :
    outcome (Decoder.readExpression ⟨bytes, none⟩) = .ok e := by
  unfold decode at hdecode
  cases hrun : Decoder.readExpression ⟨bytes, none⟩ with
  | ok e' rest =>
    rw [hrun] at hdecode
    dsimp only at hdecode
    split_ifs at hdecode
    exact hdecode
  | error err rest =>
    rw [hrun] at hdecode
    cases hdecode

/-- **Broken sources.** `readExpression` goes on a source that breaks as on its bytes before the break: it yields the
same expression, or refuses the same opcode or count. Where these bytes end too early, the error is `brokenSource`, with
the failure of the source, if it has as many bytes, and `unexpectedEnd` if it has fewer. So what takes up just these
bytes is read. -/
theorem reading_broken (bs : List UInt8) (b : Breakage) :
    ((∃ e, outcome (Decoder.readExpression ⟨bs.take b.after, none⟩) = .ok e ∧
        outcome (Decoder.readExpression ⟨bs, some b⟩) = .ok e) ∨
      (∃ code, outcome (Decoder.readExpression ⟨bs.take b.after, none⟩) = .error (.unknownOpcode code) ∧
        outcome (Decoder.readExpression ⟨bs, some b⟩) = .error (.unknownOpcode code)) ∨
      (∃ count, outcome (Decoder.readExpression ⟨bs.take b.after, none⟩) = .error (.negativeCount count) ∧
        outcome (Decoder.readExpression ⟨bs, some b⟩) = .error (.negativeCount count)) ∨
      outcome (Decoder.readExpression ⟨bs.take b.after, none⟩) = .error .unexpectedEnd ∧
        outcome (Decoder.readExpression ⟨bs, some b⟩) =
          .error (if b.after ≤ bs.length then @DecodeError.brokenSource b.failure else .unexpectedEnd)) ∧
    ∀ e, Expression.decode (bs.take b.after) = .ok e → outcome (Decoder.readExpression ⟨bs, some b⟩) = .ok e := by
  have hends := Decoder.bytewise_readExpression.ends (bs.take b.after)
  have hsame : ∀ e, outcome (Decoder.readExpression ⟨bs.take b.after, none⟩) = .ok e →
      outcome (Decoder.readExpression ⟨bs, some b⟩) = .ok e := by
    intro e hwhole
    rw [Decoder.bytewise_readExpression.outcome_broken, hwhole]
    rfl
  refine ⟨?_, fun e hdecode => hsame e (Expression.outcome_of_decode hdecode)⟩
  cases hrun : Decoder.readExpression ⟨bs.take b.after, none⟩ with
  | ok e rest => exact .inl ⟨e, rfl, hsame e (congrArg outcome hrun)⟩
  | error err rest =>
    have herror := hends.of_error hrun
    rw [Decoder.bytewise_readExpression.outcome_broken, hrun]
    cases err with
    | unknownOpcode code =>
      refine .inr (.inl ⟨code, rfl, ?_⟩)
      split_ifs <;> rfl
    | negativeCount count =>
      refine .inr (.inr (.inl ⟨count, rfl, ?_⟩))
      split_ifs <;> rfl
    | unexpectedEnd =>
      refine .inr (.inr (.inr ⟨rfl, ?_⟩))
      rw [← DecodeError.ofFailure_breakage]
      split_ifs <;> rfl
    | trailingBytes | brokenSource => simp [DecodeError.OfContent] at herror

/-- A source that breaks just behind an expression, one that breaks within its last instruction, and one that ends there
before it would break. -/
theorem reading_broken_within :
    let e : Expression := ⟨⟨9⟩, [.loadBoolean true]⟩
    let bs : List UInt8 := [9, 0, 0, 0, 1, 0, 0, 0, 11, 1, 7]
    let reset : Breakage := { after := 9, failure := .other "connection reset" }
    Expression.decode (bs.take 10) = .ok e ∧
      outcome (Decoder.readExpression ⟨bs, some { after := 10 }⟩) = .ok e ∧
      outcome (Decoder.readExpression ⟨bs, some reset⟩) =
        .error (@DecodeError.brokenSource (.other "connection reset")) ∧
      outcome (Decoder.readExpression ⟨bs.take 9, some { after := 10 }⟩) = .error .unexpectedEnd := by
  intro e bs reset
  have hdecode : Expression.decode (bs.take 10) = .ok e := by decide
  refine ⟨hdecode, (reading_broken bs { after := 10 }).2 e hdecode, ?_, ?_⟩
  · decide
  · decide

end RefMachine
