import RefMachine.Proofs.Codec.Grammar
import RefMachine.Proofs.Codec.Writer
import Mathlib.Algebra.GroupWithZero.Nat
import Mathlib.Data.List.TakeWhile

/-!
# Round trips between expressions and bytes

Writing succeeds exactly on the expressions whose operands all fit, and reading gives back what was written
(`decode_of_encode`). Reading succeeds exactly on scripts, and writing what was read gives back the script, but for the
operands of boolean constants: any byte but zero reads as true, and true is written as one (`encode_of_decode`).
-/

namespace RefMachine

/-! ## Writing -/

/-- What is written of an expression whose operands fit. -/
def Expression.bytes (e : Expression) : List UInt8 :=
  littleEndian 4 e.resultType.bits.toNat ++ (littleEndian 4 e.code.length ++ e.code.flatMap Instruction.bytes)

namespace Expression

variable {e : Expression}

theorem fittingBytes_of_fits (hfits : ∀ i ∈ e.code, i.fits = true) : e.fittingBytes = e.bytes := by
  rw [fittingBytes, List.takeWhile_eq_self_iff.mpr hfits, bytes]

theorem encode_of_fits (hcount : e.code.length ≤ 0x7FFFFFFF) (hfits : ∀ i ∈ e.code, i.fits = true) :
    e.encode = .ok e.bytes := by
  rw [encode, Encoder.bytes, Encoder.writeExpression_eq hcount, bind_apply_of_ok (Encoder.write_unbounded _ _),
    Encoder.refuse_of_fits hfits, fittingBytes_of_fits hfits]
  simp [pure, EStateM.pure]

theorem encode_of_misfit {i : Instruction} (hcount : e.code.length ≤ 0x7FFFFFFF)
    (hfind : e.code.find? (fun i => !i.fits) = some i) :
    e.encode = .error (.operandMismatch i.opcode i.operand) := by
  rw [encode, Encoder.bytes, Encoder.writeExpression_eq hcount, bind_apply_of_ok (Encoder.write_unbounded _ _),
    Encoder.refuse_of_misfit hfind]
  rfl

theorem encode_eq_ok_iff (hcount : e.code.length ≤ 0x7FFFFFFF) {bytes : List UInt8} :
    e.encode = .ok bytes ↔ (∀ i ∈ e.code, i.fits = true) ∧ bytes = e.bytes := by
  cases hfind : e.code.find? (fun i => !i.fits) with
  | none =>
    have hfits : ∀ i ∈ e.code, i.fits = true := by
      simpa using hfind
    rw [encode_of_fits hcount hfits, Except.ok.injEq, eq_comm]
    exact (and_iff_right hfits).symm
  | some i =>
    have hmisfit := List.find?_some hfind
    rw [encode_of_misfit hcount hfind]
    constructor
    · intro hencode
      cases hencode
    · rintro ⟨hfits, -⟩
      simp [hfits i (List.mem_of_find?_eq_some hfind)] at hmisfit

theorem length_bytes (e : Expression) :
    e.bytes.length = 8 + (e.code.map fun i => i.opcode.tag.bytes.length + i.opcode.width).sum := by
  have hinstruction : ∀ i : Instruction, i.bytes.length = i.opcode.tag.bytes.length + i.opcode.width := by
    intro i
    rw [Instruction.bytes, List.length_append, length_littleEndian]
  simp only [bytes, List.length_append, length_littleEndian, List.length_flatMap, hinstruction]
  omega

end Expression

/-! ## Reading what was written -/

/-- The bytes of an instruction whose operand fits are those of a phrase that reads as it. -/
theorem Instruction.exists_phrase {i : Instruction} (hfits : i.fits = true) :
    ∃ p : Phrase, p.bytes = i.bytes ∧ p.instruction = i := by
  have hread := (Instruction.fits_iff_takes.mp hfits).operand?_payload
  rw [← ofLittleEndian_littleEndian] at hread
  have hlength := length_littleEndian i.opcode.width i.operand.payload.toNat
  have hlt := ofLittleEndian_lt (littleEndian i.opcode.width i.operand.payload.toNat)
  rw [hlength] at hlt
  refine ⟨⟨i.opcode, _, hlength, (isSome_operand? hlt).mp (Option.isSome_of_eq_some hread)⟩, rfl, ?_⟩
  exact Phrase.instruction_eq rfl hread

theorem exists_phrases {code : List Instruction} (hfits : ∀ i ∈ code, i.fits = true) :
    ∃ phrases : List Phrase, phrases.flatMap Phrase.bytes = code.flatMap Instruction.bytes ∧
      phrases.map Phrase.instruction = code := by
  induction code with
  | nil => exact ⟨[], rfl, rfl⟩
  | cons i code ih =>
    obtain ⟨p, hbytes, rfl⟩ := Instruction.exists_phrase (hfits i List.mem_cons_self)
    obtain ⟨phrases, hrest, rfl⟩ := ih fun j hj => hfits j (List.mem_cons_of_mem _ hj)
    exact ⟨p :: phrases, by rw [List.flatMap_cons, List.flatMap_cons, hbytes, hrest], rfl⟩

theorem Expression.decode_bytes {e : Expression} (hcount : e.code.length ≤ 0x7FFFFFFF)
    (hfits : ∀ i ∈ e.code, i.fits = true) : Expression.decode e.bytes = .ok e := by
  obtain ⟨phrases, hbytes, hcode⟩ := exists_phrases hfits
  have hlength : phrases.length = e.code.length := by
    rw [← hcode, List.length_map]
  refine Expression.decode_eq_ok_iff.mpr ⟨⟨e.resultType, phrases, by omega⟩, ?_, ?_⟩
  · simp only [Script.bytes, Expression.bytes, hbytes, hlength]
  · rw [Script.expression, hcode]

/-- **Writing, then reading.** `encode` succeeds exactly if all operands fit, and else refuses the first that does not.
What it writes has a length that the opcodes fix, and `decode` reads it as the expression itself. -/
theorem decode_of_encode (e : Expression) (hcount : e.code.length ≤ 0x7FFFFFFF) :
    ((∃ bytes, e.encode = .ok bytes) ↔ ∀ i ∈ e.code, i.fits = true) ∧
      (∀ i, e.code.find? (fun i => !i.fits) = some i → e.encode = .error (.operandMismatch i.opcode i.operand)) ∧
      ∀ bytes, e.encode = .ok bytes → Expression.decode bytes = .ok e ∧
        bytes.length = 8 + (e.code.map fun i => i.opcode.tag.bytes.length + i.opcode.width).sum := by
  refine ⟨⟨?_, ?_⟩, ?_, ?_⟩
  · rintro ⟨bytes, hencode⟩
    exact ((Expression.encode_eq_ok_iff hcount).mp hencode).1
  · intro hfits
    exact ⟨e.bytes, Expression.encode_of_fits hcount hfits⟩
  · intro i hfind
    exact Expression.encode_of_misfit hcount hfind
  · intro bytes hencode
    obtain ⟨hfits, rfl⟩ := (Expression.encode_eq_ok_iff hcount).mp hencode
    exact ⟨Expression.decode_bytes hcount hfits, e.length_bytes⟩

/-- Two operands of which the first is a negative number and the second a pattern that names no type, under an opcode of
two bytes; and a code that an operand of two bytes is too small for. -/
theorem decode_of_encode_mixed :
    (∃ bytes, Expression.encode ⟨⟨9⟩, [.loadInteger (-1), .loadTag ⟨5⟩, .newExpression 258]⟩ = .ok bytes ∧
      Expression.decode bytes = .ok ⟨⟨9⟩, [.loadInteger (-1), .loadTag ⟨5⟩, .newExpression 258]⟩ ∧
      bytes.length = 26) ∧
      Expression.encode ⟨⟨9⟩, [.nop, ⟨.newExpression, .integer 65536⟩, ⟨.nop, .integer 0⟩]⟩ =
        .error (.operandMismatch .newExpression (.integer 65536)) := by
  obtain ⟨hsome, -, hread⟩ :=
    decode_of_encode ⟨⟨9⟩, [.loadInteger (-1), .loadTag ⟨5⟩, .newExpression 258]⟩ (by decide)
  obtain ⟨bytes, hencode⟩ := hsome.mpr (by decide)
  obtain ⟨hdecode, hlength⟩ := hread bytes hencode
  refine ⟨⟨bytes, hencode, hdecode, hlength⟩, ?_⟩
  exact (decode_of_encode ⟨⟨9⟩, [.nop, ⟨.newExpression, .integer 65536⟩, ⟨.nop, .integer 0⟩]⟩ (by decide)).2.1 _ rfl

/-! ## Writing what was read -/

/-- The byte that is written for a truth value that was read from the given byte. -/
def truthByte (byte : UInt8) : UInt8 :=
  if byte = 0 then 0 else 1

theorem truthByte_eq_self_iff {byte : UInt8} : truthByte byte = byte ↔ byte = 0 ∨ byte = 1 := by
  unfold truthByte
  split_ifs with hzero
  · simp [hzero]
  · simp [hzero, eq_comm]

theorem littleEndian_min_one (byte : UInt8) : littleEndian 1 (min (ofLittleEndian [byte]) 1) = [truthByte byte] := by
  by_cases hzero : byte = 0
  · rw [hzero]
    rfl
  · have hpos : 1 ≤ ofLittleEndian [byte] := by
      have hne : byte.toNat ≠ 0 := fun hnat => hzero (UInt8.toNat_inj.mp hnat)
      rw [ofLittleEndian]
      omega
    rw [Nat.min_eq_right hpos, truthByte, if_neg hzero]
    rfl

/-- The places of the operands of boolean constants among the bytes of phrases. -/
inductive BooleanPlace : List Phrase → Nat → Prop where
  | here {p : Phrase} {rest : List Phrase} (hp : p.opcode = .loadBoolean) :
    BooleanPlace (p :: rest) p.opcode.tag.bytes.length
  | there {p : Phrase} {rest : List Phrase} {place : Nat} (hrest : BooleanPlace rest place) :
    BooleanPlace (p :: rest) (p.bytes.length + place)

/-- The places of the operands of boolean constants among the bytes of a script, behind the type tag and the count. -/
def Script.BooleanAt (s : Script) (place : Nat) : Prop :=
  ∃ inner, BooleanPlace s.phrases inner ∧ place = 8 + inner

namespace Phrase

variable {p : Phrase}

theorem bytes_instruction_of_ne (hp : p.opcode ≠ .loadBoolean) : p.instruction.bytes = p.bytes := by
  have hpayload := p.takes.2
  rw [if_neg hp] at hpayload
  change p.opcode.tag.bytes ++ littleEndian p.opcode.width _ = _
  rw [hpayload, ← p.length_operand, number, littleEndian_ofLittleEndian, bytes]

theorem bytes_instruction_of_boolean (hp : p.opcode = .loadBoolean) :
    ∃ byte, p.bytes = p.opcode.tag.bytes ++ [byte] ∧ p.instruction.bytes = p.opcode.tag.bytes ++ [truthByte byte] := by
  have hwidth : p.opcode.width = 1 := by
    rw [hp]
    rfl
  obtain ⟨byte, hbyte⟩ := List.length_eq_one_iff.mp (p.length_operand.trans hwidth)
  have hpayload := p.takes.2
  rw [if_pos hp, number, hbyte] at hpayload
  refine ⟨byte, by rw [bytes, hbyte], ?_⟩
  change p.opcode.tag.bytes ++ littleEndian p.opcode.width _ = _
  rw [hpayload, hwidth, littleEndian_min_one]

theorem length_bytes_instruction (p : Phrase) : p.instruction.bytes.length = p.bytes.length := by
  rw [Instruction.bytes, bytes, List.length_append, List.length_append, length_littleEndian, p.length_operand]
  rfl

end Phrase

theorem BooleanPlace.getElem? {phrases : List Phrase} {place : Nat} (hplace : BooleanPlace phrases place) :
    (phrases.flatMap fun p => p.instruction.bytes)[place]? = (phrases.flatMap Phrase.bytes)[place]?.map truthByte := by
  induction hplace with
  | @here p rest hp =>
    obtain ⟨byte, hbytes, hwritten⟩ := Phrase.bytes_instruction_of_boolean hp
    simp [hbytes, hwritten]
  | @there p rest place hrest ih =>
    rw [List.flatMap_cons, List.flatMap_cons, List.getElem?_append_right (by rw [p.length_bytes_instruction]; omega),
      List.getElem?_append_right (by omega), p.length_bytes_instruction, Nat.add_sub_cancel_left, ih]

theorem getElem?_of_not_booleanPlace {phrases : List Phrase} {place : Nat} (hplace : ¬ BooleanPlace phrases place) :
    (phrases.flatMap fun p => p.instruction.bytes)[place]? = (phrases.flatMap Phrase.bytes)[place]? := by
  induction phrases generalizing place with
  | nil => rfl
  | cons p rest ih =>
    rw [List.flatMap_cons, List.flatMap_cons]
    by_cases hlt : place < p.bytes.length
    · rw [List.getElem?_append_left (by rwa [p.length_bytes_instruction]), List.getElem?_append_left hlt]
      by_cases hp : p.opcode = .loadBoolean
      · obtain ⟨byte, hbytes, hwritten⟩ := Phrase.bytes_instruction_of_boolean hp
        have hne : place ≠ p.opcode.tag.bytes.length := by
          rintro rfl
          exact hplace (.here hp)
        rw [hbytes, List.length_append, List.length_singleton] at hlt
        rw [hbytes, hwritten, List.getElem?_append_left (by omega), List.getElem?_append_left (by omega)]
      · rw [Phrase.bytes_instruction_of_ne hp]
    · obtain ⟨inner, rfl⟩ := Nat.exists_eq_add_of_le (Nat.le_of_not_lt hlt)
      rw [List.getElem?_append_right (by rw [p.length_bytes_instruction]; omega), List.getElem?_append_right (by omega),
        p.length_bytes_instruction, Nat.add_sub_cancel_left, ih fun hrest => hplace (.there hrest)]

namespace Script

variable {s : Script} {place : Nat}

theorem fits_of_mem {i : Instruction} (hi : i ∈ s.expression.code) : i.fits = true := by
  obtain ⟨p, -, rfl⟩ := List.mem_map.mp hi
  exact p.fits_instruction

theorem encode_expression (s : Script) : s.expression.encode = .ok s.expression.bytes := by
  refine Expression.encode_of_fits ?_ fun i hi => fits_of_mem hi
  have hlt := s.length_lt
  rw [expression, List.length_map]
  omega

/-- The type tag and the count. -/
def header (s : Script) : List UInt8 :=
  littleEndian 4 s.tag.bits.toNat ++ littleEndian 4 s.phrases.length

theorem length_header (s : Script) : s.header.length = 8 := by
  simp [header]

theorem bytes_eq (s : Script) : s.bytes = s.header ++ s.phrases.flatMap Phrase.bytes := by
  rw [bytes, header, List.append_assoc]

theorem bytes_expression (s : Script) :
    s.expression.bytes = s.header ++ s.phrases.flatMap fun p => p.instruction.bytes := by
  rw [Expression.bytes, expression, List.length_map, List.flatMap_map, header, List.append_assoc]

theorem length_bytes_expression (s : Script) : s.expression.bytes.length = s.bytes.length := by
  simp only [bytes_expression, bytes_eq, List.length_append, List.length_flatMap, Phrase.length_bytes_instruction]

theorem getElem?_of_booleanAt (hplace : s.BooleanAt place) :
    s.expression.bytes[place]? = s.bytes[place]?.map truthByte := by
  obtain ⟨inner, hinner, rfl⟩ := hplace
  have hle : s.header.length ≤ 8 + inner := by
    rw [length_header]
    omega
  rw [bytes_expression, bytes_eq, List.getElem?_append_right hle, List.getElem?_append_right hle, length_header,
    Nat.add_sub_cancel_left]
  exact hinner.getElem?

theorem getElem?_of_not_booleanAt (hplace : ¬ s.BooleanAt place) : s.expression.bytes[place]? = s.bytes[place]? := by
  rw [bytes_expression, bytes_eq]
  by_cases hlt : place < s.header.length
  · rw [List.getElem?_append_left hlt, List.getElem?_append_left hlt]
  · have hle := Nat.le_of_not_lt hlt
    rw [List.getElem?_append_right hle, List.getElem?_append_right hle]
    rw [length_header] at hle ⊢
    refine getElem?_of_not_booleanPlace fun hinner => hplace ⟨place - 8, hinner, ?_⟩
    omega

theorem bytes_eq_iff :
    s.expression.bytes = s.bytes ↔
      ∀ place byte, s.BooleanAt place → s.bytes[place]? = some byte → byte = 0 ∨ byte = 1 := by
  constructor
  · intro heq place byte hplace hbyte
    have hsame := getElem?_of_booleanAt hplace
    rw [heq, hbyte, Option.map_some, Option.some.injEq] at hsame
    exact truthByte_eq_self_iff.mp hsame.symm
  · intro hbytes
    refine List.ext_getElem? fun place => ?_
    by_cases hplace : s.BooleanAt place
    · rw [getElem?_of_booleanAt hplace]
      cases hbyte : s.bytes[place]? with
      | none => rfl
      | some byte => rw [Option.map_some, truthByte_eq_self_iff.mpr (hbytes place byte hplace hbyte)]
    · exact getElem?_of_not_booleanAt hplace

end Script

/-- **Reading, then writing.** `decode` accepts the bytes of scripts and no others. `encode` writes what was read with
as many bytes, and as it was read but for the operands of boolean constants, where one stands for every byte but zero.
So the bytes come back exactly if these operands are all zero or one. -/
theorem encode_of_decode (bytes : List UInt8) :
    ((∃ e, Expression.decode bytes = .ok e) ↔ ∃ s : Script, s.bytes = bytes) ∧
      ∀ (s : Script) (e : Expression), s.bytes = bytes → Expression.decode bytes = .ok e →
        (∀ i ∈ e.code, i.fits = true) ∧
          ∃ written, e.encode = .ok written ∧ written.length = bytes.length ∧
            (∀ place, s.BooleanAt place → written[place]? = bytes[place]?.map truthByte) ∧
            (∀ place, ¬ s.BooleanAt place → written[place]? = bytes[place]?) ∧
            (written = bytes ↔ ∀ place byte, s.BooleanAt place → bytes[place]? = some byte → byte = 0 ∨ byte = 1) := by
  constructor
  · constructor
    · rintro ⟨e, hdecode⟩
      obtain ⟨s, hbytes, -⟩ := Expression.decode_eq_ok_iff.mp hdecode
      exact ⟨s, hbytes⟩
    · rintro ⟨s, hbytes⟩
      exact ⟨s.expression, Expression.decode_eq_ok_iff.mpr ⟨s, hbytes, rfl⟩⟩
  · rintro s e rfl hdecode
    have hread : Expression.decode s.bytes = .ok s.expression := Expression.decode_eq_ok_iff.mpr ⟨s, rfl, rfl⟩
    rw [hread, Except.ok.injEq] at hdecode
    subst hdecode
    refine ⟨fun i hi => Script.fits_of_mem hi, s.expression.bytes, s.encode_expression, s.length_bytes_expression, ?_⟩
    exact ⟨fun _ => Script.getElem?_of_booleanAt, fun _ => Script.getElem?_of_not_booleanAt, Script.bytes_eq_iff⟩

/-- A boolean constant whose operand is the byte seven, and an instruction without operand behind it. -/
theorem encode_of_decode_seven :
    ∃ e written, Expression.decode [5, 0, 0, 0, 2, 0, 0, 0, 11, 7, 0] = .ok e ∧ e.encode = .ok written ∧
      written[9]? = some 1 ∧ written ≠ [5, 0, 0, 0, 2, 0, 0, 0, 11, 7, 0] := by
  obtain ⟨s, hbytes, hplace⟩ : ∃ s : Script, s.bytes = [5, 0, 0, 0, 2, 0, 0, 0, 11, 7, 0] ∧ s.BooleanAt 9 :=
    ⟨⟨⟨5⟩, [⟨.loadBoolean, [7], rfl, by simp⟩, ⟨.nop, [], rfl, by simp⟩], by decide⟩, rfl, 1, .here rfl, rfl⟩
  obtain ⟨haccepts, hwrites⟩ := encode_of_decode [5, 0, 0, 0, 2, 0, 0, 0, 11, 7, 0]
  obtain ⟨e, hdecode⟩ := haccepts.mpr ⟨s, hbytes⟩
  obtain ⟨-, written, hencode, -, hboolean, -, hsame⟩ := hwrites s e hbytes hdecode
  refine ⟨e, written, hdecode, hencode, hboolean 9 hplace, fun heq => ?_⟩
  exact absurd (hsame.mp heq 9 7 hplace rfl) (by decide)

end RefMachine
