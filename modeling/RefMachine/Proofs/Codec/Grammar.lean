import RefMachine.Codec.Encode
import RefMachine.Proofs.Codec.Reader

/-!
# The grammar of expressions in bytes

An expression in bytes is a script: a type tag, the number of its phrases, and the phrases, one for each instruction. A
phrase is the tag of an opcode and as many bytes as that opcode's operand has. The reader accepts exactly the bytes of
scripts (`decode_eq_ok_iff`), and what it makes of a phrase is an instruction whose operand fits.

Writing and reading agree on operands: the opcode takes what is read (`Takes.of_operand?`), and what it takes is read as
it was written (`Takes.operand?_payload`).
-/

namespace RefMachine

/-! ## Operands -/

/-- The opcodes whose operand is a count or an index. -/
def Opcode.counts : Opcode → Bool
  | .tupleItem | .newTuple | .assignVariable | .readVariable | .assignMutableVariable | .newExpression => true
  | _ => false

/-- The operands that an opcode takes. -/
inductive Takes : Opcode → Value → Prop where
  | bare {op : Opcode} (hwidth : op.width = 0) : Takes op .error
  | boolean (b : Bool) : Takes .loadBoolean (.boolean b)
  | integer (n : Int64) : Takes .loadInteger (.integer n)
  | float (bits : UInt64) : Takes .loadFloat (.float bits)
  | type (tag : TypeTag) : Takes .loadType (.type tag)
  | string (h : Handle) : Takes .loadString (.ref .string h)
  | opcode (op : Opcode) : Takes .loadOpcode (.opcode op)
  | count {op : Opcode} {n : Nat} (hop : op.counts = true) (hn : n < Nat.pow 256 op.width) :
    Takes op (.integer (.ofNat n))

theorem toInt_ofNat {n : Nat} (hn : n < 65536) : (Int64.ofNat n).toInt = n := by
  rw [Int64.toInt_ofNat_of_lt]
  omega

theorem isSome_natBelow? {bound : Nat} (hbound : bound ≤ 65536) {v : Value} :
    (v.natBelow? bound).isSome = true ↔ ∃ n < bound, v = .integer (.ofNat n) := by
  cases v with
  | error | boolean | float | type | opcode | ref => simp [Value.natBelow?]
  | integer m =>
    simp only [Value.natBelow?, Value.integer.injEq]
    constructor
    · intro hsome
      split_ifs at hsome with hm
      · refine ⟨m.toInt.toNat, by omega, ?_⟩
        apply Int64.toInt_inj.mp
        rw [toInt_ofNat] <;> omega
      · cases hsome
    · rintro ⟨n, hn, rfl⟩
      rw [toInt_ofNat (by omega), if_pos (by omega)]
      rfl

namespace Instruction

theorem isSome_bare? {i : Instruction} {operation : Operation} :
    (i.bare? operation).isSome = true ↔ i.operand = .error := by
  simp [bare?]

theorem fits_iff_takes {i : Instruction} : i.fits = true ↔ Takes i.opcode i.operand := by
  obtain ⟨op, v⟩ := i
  constructor
  · intro hfits
    cases op with
    | nop | getType | typeIs | typeEquals | tupleArity | listHead | listTail | listEmpty | listAdd
    | evaluateExpression =>
      obtain rfl : v = .error := isSome_bare?.mp hfits
      exact .bare rfl
    | tupleItem | newTuple | assignVariable | readVariable | assignMutableVariable | newExpression =>
      obtain ⟨n, hn, rfl⟩ := (isSome_natBelow? (by decide)).mp (Option.isSome_map.symm.trans hfits)
      exact .count rfl hn
    | loadBoolean =>
      cases v with
      | boolean b => exact .boolean b
      | ref k => cases k <;> cases hfits
      | _ => cases hfits
    | loadInteger =>
      cases v with
      | integer n => exact .integer n
      | ref k => cases k <;> cases hfits
      | _ => cases hfits
    | loadFloat =>
      cases v with
      | float bits => exact .float bits
      | ref k => cases k <;> cases hfits
      | _ => cases hfits
    | loadType =>
      cases v with
      | type tag => exact .type tag
      | ref k => cases k <;> cases hfits
      | _ => cases hfits
    | loadOpcode =>
      cases v with
      | opcode op => exact .opcode op
      | ref k => cases k <;> cases hfits
      | _ => cases hfits
    | loadString =>
      cases v with
      | ref k h =>
        cases k with
        | string => exact .string h
        | tuple | list | expression => cases hfits
      | _ => cases hfits
  · intro htakes
    cases htakes with
    | bare hwidth =>
      cases op with
      | nop | getType | typeIs | typeEquals | tupleArity | listHead | listTail | listEmpty | listAdd
      | evaluateExpression => rfl
      | _ => cases hwidth
    | boolean | integer | float | type | string | opcode => rfl
    | count hop hn =>
      cases op with
      | tupleItem | newTuple | assignVariable | readVariable | assignMutableVariable | newExpression =>
        exact Option.isSome_map.trans ((isSome_natBelow? (by decide)).mpr ⟨_, hn, rfl⟩)
      | _ => cases hop

end Instruction

theorem Value.toNat_payload_count {n : Nat} (hn : n < 65536) : (Value.integer (.ofNat n)).payload.toNat = n := by
  have hword : (Int64.ofNat n).toUInt64 = UInt64.ofNat n := rfl
  rw [payload, hword, UInt64.toNat_ofNat']
  omega

theorem Opcode.pow_width_le {op : Opcode} (hop : op.counts = true) : Nat.pow 256 op.width ≤ 65536 := by
  cases op with
  | tupleItem | newTuple | assignVariable | readVariable | assignMutableVariable | newExpression => decide
  | _ => cases hop

namespace Takes

variable {op : Opcode} {v : Value}

theorem operand?_payload (htakes : Takes op v) :
    Decoder.operand? op (v.payload.toNat % Nat.pow 256 op.width) = some v := by
  cases htakes with
  | bare hwidth =>
    cases op with
    | nop | getType | typeIs | typeEquals | tupleArity | listHead | listTail | listEmpty | listAdd
    | evaluateExpression => rfl
    | _ => cases hwidth
  | boolean b => cases b <;> rfl
  | integer | float | type | string | opcode => simp [Decoder.operand?, Value.payload, Opcode.width]
  | count hop hn =>
    rw [Value.toNat_payload_count (Nat.lt_of_lt_of_le hn (Opcode.pow_width_le hop)), Nat.mod_eq_of_lt hn]
    cases op with
    | tupleItem | newTuple | assignVariable | readVariable | assignMutableVariable | newExpression => rfl
    | _ => cases hop

/-- What `operand?` reads is an operand that its opcode takes, and its payload is the number read, but for a boolean. -/
theorem of_operand? {n : Nat} (hn : n < Nat.pow 256 op.width) (hv : Decoder.operand? op n = some v) :
    Takes op v ∧ v.payload.toNat = if op = .loadBoolean then min n 1 else n := by
  cases op with
  | nop | getType | typeIs | typeEquals | tupleArity | listHead | listTail | listEmpty | listAdd
  | evaluateExpression =>
    cases hv
    exact ⟨.bare rfl, (Nat.lt_one_iff.mp hn).symm⟩
  | tupleItem | newTuple | assignVariable | readVariable | assignMutableVariable | newExpression =>
    cases hv
    exact ⟨.count rfl hn, Value.toNat_payload_count (Nat.lt_of_lt_of_le hn (by decide))⟩
  | loadBoolean =>
    cases hv
    refine ⟨.boolean _, ?_⟩
    cases n with
    | zero => rfl
    | succ n => simp [Value.payload]
  | loadInteger =>
    cases hv
    refine ⟨.integer _, ?_⟩
    simpa [Value.payload, Opcode.width] using hn
  | loadFloat =>
    cases hv
    refine ⟨.float _, ?_⟩
    simpa [Value.payload, Opcode.width] using hn
  | loadType =>
    cases hv
    refine ⟨.type _, ?_⟩
    simpa [Value.payload, Opcode.width] using hn
  | loadString =>
    cases hv
    refine ⟨.string _, ?_⟩
    simpa [Value.payload, Opcode.width] using hn
  | loadOpcode =>
    obtain ⟨target, htarget, rfl⟩ := Option.map_eq_some_iff.mp hv
    refine ⟨.opcode _, ?_⟩
    have hcode := Opcode.ofCode?_eq_some_iff.mp htarget
    simpa [Value.payload, ← hcode, Opcode.width] using hn

end Takes

theorem isSome_operand? {op : Opcode} {n : Nat} (hn : n < Nat.pow 256 op.width) :
    (Decoder.operand? op n).isSome = true ↔ (op = .loadOpcode → ∃ target : Opcode, n = target.code.toNat) := by
  cases op with
  | loadOpcode =>
    have hword : n.toUInt16.toNat = n := by
      simpa [Opcode.width] using hn
    simp only [Decoder.operand?, Option.isSome_map, Option.isSome_iff_exists, Opcode.ofCode?_eq_some_iff, forall_const]
    refine exists_congr fun target => ?_
    rw [← UInt16.toNat_inj, hword]
  | _ => simp [Decoder.operand?]

/-! ## Phrases -/

/-- An instruction as it stands in bytes. -/
structure Phrase where
  opcode : Opcode
  /-- The bytes of the operand, as many as the opcode says. -/
  operand : List UInt8
  length_operand : operand.length = opcode.width
  /-- An opcode is loaded by its code. -/
  known : opcode = .loadOpcode → ∃ target : Opcode, ofLittleEndian operand = target.code.toNat

namespace Phrase

def bytes (p : Phrase) : List UInt8 :=
  p.opcode.tag.bytes ++ p.operand

/-- The operand's bytes as a number. -/
def number (p : Phrase) : Nat :=
  ofLittleEndian p.operand

theorem number_lt (p : Phrase) : p.number < Nat.pow 256 p.opcode.width := by
  rw [← p.length_operand]
  exact ofLittleEndian_lt p.operand

/-- The instruction that is read from the phrase. -/
def instruction (p : Phrase) : Instruction :=
  ⟨p.opcode, (Decoder.operand? p.opcode p.number).getD .error⟩

theorem instruction_eq {p : Phrase} {i : Instruction} (hopcode : i.opcode = p.opcode)
    (hoperand : Decoder.operand? p.opcode p.number = some i.operand) : p.instruction = i := by
  rw [instruction, hoperand, ← hopcode, Option.getD_some]

theorem operand?_number (p : Phrase) : Decoder.operand? p.opcode p.number = some p.instruction.operand := by
  obtain ⟨v, hv⟩ := Option.isSome_iff_exists.mp ((isSome_operand? p.number_lt).mpr p.known)
  rw [instruction, hv, Option.getD_some]

theorem takes (p : Phrase) :
    Takes p.opcode p.instruction.operand ∧
      p.instruction.operand.payload.toNat = if p.opcode = .loadBoolean then min p.number 1 else p.number :=
  Takes.of_operand? p.number_lt p.operand?_number

theorem fits_instruction (p : Phrase) : p.instruction.fits = true :=
  Instruction.fits_iff_takes.mpr p.takes.1

end Phrase

theorem Decoder.reads_readInstruction :
    Reads readInstruction fun bytes i => ∃ p : Phrase, p.bytes = bytes ∧ p.instruction = i := by
  unfold readInstruction
  refine (reads_readOpcode.bind fun op => (reads_readNumber op.width).bind fun n =>
    (?operand : Reads _ fun bytes i => bytes = [] ∧ i.opcode = op ∧ operand? op n = some i.operand)).congr
    fun bytes i => ⟨?_, ?_⟩
  case operand =>
    cases operand? op n with
    | none => exact (Reads.throw _).congr fun bytes i => by simp
    | some v =>
      refine (Reads.pure _).congr fun bytes i => ?_
      obtain ⟨opcode, operand⟩ := i
      simp [eq_comm]
  · rintro ⟨op, xs, ys, rfl, rfl, n, operand, zs, rfl, ⟨hlength, rfl⟩, rfl, rfl, hoperand⟩
    have hn := ofLittleEndian_lt operand
    rw [hlength] at hn
    refine ⟨⟨i.opcode, operand, hlength, (isSome_operand? hn).mp (Option.isSome_of_eq_some hoperand)⟩, ?_, ?_⟩
    · rw [Phrase.bytes, List.append_nil]
    · exact Phrase.instruction_eq rfl hoperand
  · rintro ⟨p, rfl, rfl⟩
    exact ⟨p.opcode, p.opcode.tag.bytes, p.operand, rfl, rfl, p.number, p.operand, [], (List.append_nil _).symm,
      ⟨p.length_operand, rfl⟩, rfl, rfl, p.operand?_number⟩

theorem Decoder.reads_readInstructions (n : Nat) (done : List Instruction) :
    Reads (readInstructions n done) fun bytes code => ∃ phrases : List Phrase, phrases.length = n ∧
      phrases.flatMap Phrase.bytes = bytes ∧ done.reverse ++ phrases.map Phrase.instruction = code := by
  induction n generalizing done with
  | zero =>
    refine (Reads.pure done.reverse).congr fun bytes code => ?_
    constructor
    · rintro ⟨rfl, rfl⟩
      exact ⟨[], rfl, rfl, List.append_nil _⟩
    · rintro ⟨phrases, hlength, rfl, rfl⟩
      rw [List.length_eq_zero_iff.mp hlength]
      exact ⟨rfl, List.append_nil _⟩
  | succ n ih =>
    refine (reads_readInstruction.bind fun i => ih (i :: done)).congr fun bytes code => ?_
    constructor
    · rintro ⟨i, xs, ys, rfl, ⟨p, rfl, rfl⟩, phrases, rfl, rfl, rfl⟩
      exact ⟨p :: phrases, rfl, rfl, by simp⟩
    · rintro ⟨phrases, hlength, rfl, rfl⟩
      cases phrases with
      | nil => cases hlength
      | cons p phrases =>
        exact ⟨p.instruction, p.bytes, phrases.flatMap Phrase.bytes, rfl, ⟨p, rfl, rfl⟩, phrases,
          Nat.succ.inj hlength, rfl, by simp⟩

/-! ## Scripts -/

/-- An expression as it stands in bytes. -/
structure Script where
  tag : TypeTag
  phrases : List Phrase
  /-- The number of phrases is a signed word. -/
  length_lt : phrases.length < 0x80000000

namespace Script

def bytes (s : Script) : List UInt8 :=
  littleEndian 4 s.tag.bits.toNat ++ (littleEndian 4 s.phrases.length ++ s.phrases.flatMap Phrase.bytes)

/-- The expression that is read from the script. -/
def expression (s : Script) : Expression :=
  ⟨s.tag, s.phrases.map Phrase.instruction⟩

end Script

theorem Decoder.reads_readExpression :
    Reads readExpression fun bytes e => ∃ s : Script, s.bytes = bytes ∧ s.expression = e := by
  have hcode : ∀ tag count : Nat, Reads
      (if count < 0x80000000 then readInstructions count [] >>= fun code => Pure.pure ⟨⟨tag.toUInt32⟩, code⟩
        else MonadExcept.throw (.negativeCount ((count : Int) - UInt32.size)) : Decoder Expression)
      fun bytes e => count < 0x80000000 ∧ ∃ phrases : List Phrase, phrases.length = count ∧
        phrases.flatMap Phrase.bytes = bytes ∧ e = ⟨⟨tag.toUInt32⟩, phrases.map Phrase.instruction⟩ := by
    intro tag count
    split_ifs with hcount
    · refine (reads_readInstructions count []).map.congr fun bytes e => ?_
      constructor
      · rintro ⟨code, ⟨phrases, hlength, hbytes, rfl⟩, rfl⟩
        exact ⟨hcount, phrases, hlength, hbytes, rfl⟩
      · rintro ⟨-, phrases, hlength, hbytes, rfl⟩
        exact ⟨_, ⟨phrases, hlength, hbytes, rfl⟩, rfl⟩
    · exact (Reads.throw _).congr fun bytes e => by simp [hcount]
  refine ((reads_readNumber 4).bind fun tag => (reads_readNumber 4).bind (hcode tag)).congr fun bytes e => ?_
  constructor
  · rintro ⟨tag, xs, ys, rfl, htag, count, zs, ws, rfl, hword, hlt, phrases, rfl, rfl, rfl⟩
    obtain ⟨hbits, rfl⟩ := eq_littleEndian_iff.mp htag
    obtain ⟨-, rfl⟩ := eq_littleEndian_iff.mp hword
    refine ⟨⟨⟨tag.toUInt32⟩, phrases, hlt⟩, ?_, rfl⟩
    rw [Script.bytes, show tag.toUInt32.toNat = tag from UInt32.toNat_ofNat_of_lt hbits]
  · rintro ⟨s, rfl, rfl⟩
    have hbits : s.tag.bits.toNat < Nat.pow 256 4 := s.tag.bits.toNat_lt
    have hcount : s.phrases.length < Nat.pow 256 4 := Nat.lt_trans s.length_lt (by decide)
    refine ⟨_, _, _, rfl, eq_littleEndian_iff.mpr ⟨hbits, rfl⟩, _, _, _, rfl, eq_littleEndian_iff.mpr ⟨hcount, rfl⟩, ?_⟩
    refine ⟨s.length_lt, s.phrases, rfl, rfl, ?_⟩
    rw [Script.expression, show s.tag.bits.toNat.toUInt32 = s.tag.bits from UInt32.ofNat_toNat]

/-- **The grammar of the format.** `decode` accepts the bytes of scripts and no others. -/
theorem Expression.decode_eq_ok_iff {bytes : List UInt8} {e : Expression} :
    Expression.decode bytes = .ok e ↔ ∃ s : Script, s.bytes = bytes ∧ s.expression = e := by
  have hreads := fun rest => Decoder.reads_readExpression ⟨bytes, none⟩ e rest
  constructor
  · intro hdecode
    unfold Expression.decode at hdecode
    split at hdecode
    · rename_i e' rest hrun
      split_ifs at hdecode with hempty
      cases hdecode
      obtain ⟨spelled, ⟨s, rfl, rfl⟩, hyields⟩ := (hreads rest).mp hrun
      obtain ⟨hbytes, -⟩ := Source.yields_iff.mp hyields
      rw [List.isEmpty_iff.mp hempty, List.append_nil] at hbytes
      exact ⟨s, hbytes.symm, rfl⟩
    · cases hdecode
  · rintro ⟨s, rfl, rfl⟩
    have hrun := (hreads ⟨[], none⟩).mpr
      ⟨s.bytes, ⟨s, rfl, rfl⟩, Source.yields_iff.mpr ⟨(List.append_nil _).symm, rfl⟩⟩
    rw [Expression.decode, hrun]
    rfl

end RefMachine
