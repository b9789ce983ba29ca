import RefMachine.Codec.Decode
import RefMachine.Proofs.Outcome

/-!
# What readers take from a source

`Reads read spells` says that a reader takes exactly the bytes that spell its answer: it succeeds with an answer if and
only if the source yields bytes that spell it, and it leaves the source where these bytes end. A reader made of others
reads what they read one after the other (`Reads.bind`), so what a reader accepts follows its definition.
-/

namespace RefMachine

/-- The source yields these bytes, one after the other, and is then as given. -/
def Source.Yields : List UInt8 → Source → Source → Prop
  | [], source, rest => rest = source
  | byte :: bytes, source, rest => ∃ next, Decoder.readByte source = .ok byte next ∧ Yields bytes next rest

namespace Source

theorem yields_append {xs ys : List UInt8} {source rest : Source} :
    Yields (xs ++ ys) source rest ↔ ∃ middle, Yields xs source middle ∧ Yields ys middle rest := by
  induction xs generalizing source with
  | nil => simp [Yields]
  | cons byte xs ih =>
    simp only [List.cons_append, Yields, ih]
    constructor
    · rintro ⟨next, hbyte, middle, hxs, hys⟩
      exact ⟨middle, ⟨next, hbyte, hxs⟩, hys⟩
    · rintro ⟨middle, ⟨next, hbyte, hxs⟩, hys⟩
      exact ⟨next, hbyte, middle, hxs, hys⟩

theorem yields_iff {xs bytes : List UInt8} {rest : Source} :
    Yields xs ⟨bytes, none⟩ rest ↔ bytes = xs ++ rest.bytes ∧ rest.breakage = none := by
  induction xs generalizing bytes with
  | nil =>
    obtain ⟨left, breakage⟩ := rest
    simp only [Yields, Source.mk.injEq, List.nil_append]
    exact and_congr_left' eq_comm
  | cons x xs ih =>
    cases bytes with
    | nil =>
      have hread : Decoder.readByte ⟨[], none⟩ = .error .unexpectedEnd ⟨[], none⟩ := rfl
      simp [Yields, hread]
    | cons byte bytes =>
      have hread : Decoder.readByte ⟨byte :: bytes, none⟩ = .ok byte ⟨bytes, none⟩ := rfl
      constructor
      · rintro ⟨next, hbyte, hrest⟩
        rw [hread] at hbyte
        cases hbyte
        obtain ⟨rfl, hwhole⟩ := ih.mp hrest
        exact ⟨rfl, hwhole⟩
      · rintro ⟨heq, hwhole⟩
        cases heq
        exact ⟨_, hread, ih.mpr ⟨rfl, hwhole⟩⟩

end Source

/-- The reader succeeds with an answer exactly where the source yields bytes that spell it. -/
def Reads {α : Type} (read : Decoder α) (spells : List UInt8 → α → Prop) : Prop :=
  ∀ source a rest, read source = .ok a rest ↔ ∃ bytes, spells bytes a ∧ Source.Yields bytes source rest

namespace Reads

variable {α β : Type} {read : Decoder α} {spells spells' : List UInt8 → α → Prop}

theorem congr (hread : Reads read spells) (hspells : ∀ bytes a, spells bytes a ↔ spells' bytes a) :
    Reads read spells' := by
  intro source a rest
  rw [hread source a rest]
  simp only [hspells]

theorem pure (a : α) : Reads (Pure.pure a) fun bytes b => bytes = [] ∧ b = a := by
  intro source b rest
  constructor
  · intro hrun
    cases hrun
    exact ⟨[], ⟨rfl, rfl⟩, rfl⟩
  · rintro ⟨bytes, ⟨rfl, rfl⟩, hyields⟩
    rw [show rest = source from hyields]
    rfl

theorem throw (e : DecodeError) : Reads (MonadExcept.throw e : Decoder α) fun _ _ => False := by
  intro source a rest
  constructor
  · intro hrun
    cases hrun
  · rintro ⟨_, hfalse, _⟩
    exact hfalse.elim

theorem bind {next : α → Decoder β} {follows : α → List UInt8 → β → Prop} (hread : Reads read spells)
    (hnext : ∀ a, Reads (next a) (follows a)) :
    Reads (read >>= next) fun bytes b => ∃ a xs ys, bytes = xs ++ ys ∧ spells xs a ∧ follows a ys b := by
  intro source b rest
  constructor
  · intro hrun
    change EStateM.bind read next source = _ at hrun
    unfold EStateM.bind at hrun
    split at hrun
    · rename_i a middle hfirst
      obtain ⟨xs, hxs, hyields⟩ := (hread source a middle).mp hfirst
      obtain ⟨ys, hys, hyields'⟩ := (hnext a middle b rest).mp hrun
      exact ⟨xs ++ ys, ⟨a, xs, ys, rfl, hxs, hys⟩, Source.yields_append.mpr ⟨middle, hyields, hyields'⟩⟩
    · cases hrun
  · rintro ⟨bytes, ⟨a, xs, ys, rfl, hxs, hys⟩, hyields⟩
    obtain ⟨middle, hyields, hyields'⟩ := Source.yields_append.mp hyields
    rw [bind_apply_of_ok ((hread source a middle).mpr ⟨xs, hxs, hyields⟩)]
    exact (hnext a middle b rest).mpr ⟨ys, hys, hyields'⟩

theorem map {f : α → β} (hread : Reads read spells) :
    Reads (read >>= fun a => Pure.pure (f a)) fun bytes b => ∃ a, spells bytes a ∧ b = f a := by
  refine (hread.bind fun a => pure (f a)).congr fun bytes b => ?_
  constructor
  · rintro ⟨a, xs, ys, rfl, hxs, rfl, rfl⟩
    exact ⟨a, by rwa [List.append_nil], rfl⟩
  · rintro ⟨a, hxs, rfl⟩
    exact ⟨a, bytes, [], (List.append_nil bytes).symm, hxs, rfl, rfl⟩

end Reads

theorem eq_littleEndian_iff {bytes : List UInt8} {width n : Nat} :
    (bytes.length = width ∧ n = ofLittleEndian bytes) ↔ n < Nat.pow 256 width ∧ bytes = littleEndian width n := by
  constructor
  · rintro ⟨rfl, rfl⟩
    exact ⟨ofLittleEndian_lt bytes, (littleEndian_ofLittleEndian bytes).symm⟩
  · rintro ⟨hn, rfl⟩
    rw [ofLittleEndian_littleEndian, Nat.mod_eq_of_lt hn]
    exact ⟨length_littleEndian width n, rfl⟩

namespace Decoder

/-! ## Bytes and numbers -/

theorem reads_readByte : Reads readByte fun bytes byte => bytes = [byte] := by
  intro source byte rest
  constructor
  · intro hrun
    exact ⟨[byte], rfl, rest, hrun, rfl⟩
  · rintro ⟨bytes, rfl, next, hrun, hrest⟩
    rw [show rest = next from hrest]
    exact hrun

theorem reads_readBytes (n : Nat) : Reads (readBytes n) fun bytes answer => bytes = answer ∧ answer.length = n := by
  induction n with
  | zero =>
    refine (Reads.pure []).congr fun bytes answer => ?_
    rw [List.length_eq_zero_iff]
    constructor
    · rintro ⟨rfl, rfl⟩
      exact ⟨rfl, rfl⟩
    · rintro ⟨rfl, rfl⟩
      exact ⟨rfl, rfl⟩
  | succ n ih =>
    refine (reads_readByte.bind fun byte => ih.map).congr fun bytes answer => ?_
    constructor
    · rintro ⟨byte, xs, ys, rfl, rfl, tail, ⟨rfl, rfl⟩, rfl⟩
      exact ⟨rfl, rfl⟩
    · rintro ⟨rfl, hlength⟩
      cases bytes with
      | nil => cases hlength
      | cons byte tail => exact ⟨byte, [byte], tail, rfl, rfl, tail, ⟨rfl, Nat.succ.inj hlength⟩, rfl⟩

theorem reads_readNumber (width : Nat) :
    Reads (readNumber width) fun bytes n => bytes.length = width ∧ n = ofLittleEndian bytes := by
  refine (reads_readBytes width).map.congr fun bytes n => ?_
  constructor
  · rintro ⟨answer, ⟨rfl, hlength⟩, rfl⟩
    exact ⟨hlength, rfl⟩
  · rintro ⟨hlength, rfl⟩
    exact ⟨bytes, ⟨rfl, hlength⟩, rfl⟩

/-! ## Opcodes -/

end Decoder

namespace OpcodeTag

/-- A tag of one byte is no escape, and a tag of two bytes starts with one. -/
def Proper : OpcodeTag → Prop
  | short byte => isEscape byte = false
  | extended escape _ => isEscape escape = true

theorem toNat_wordOfBytes (high low : UInt8) : (wordOfBytes high low).toNat = 256 * high.toNat + low.toNat := by
  have hhigh : high.toNat < 256 := high.toNat_lt
  have hlow : low.toNat < 2 ^ 8 := low.toNat_lt
  have hshift : (high.toUInt16 <<< 8).toNat = high.toNat <<< 8 := by
    have hlt : high.toNat <<< 8 < 2 ^ 16 := by
      rw [Nat.shiftLeft_eq]
      omega
    simpa using hlt
  rw [wordOfBytes, UInt16.toNat_or, hshift, UInt8.toNat_toUInt16, ← Nat.shiftLeft_add_eq_or_of_lt hlow,
    Nat.shiftLeft_eq]
  omega

theorem ofCode?_code {tag : OpcodeTag} (htag : tag.Proper) : ofCode? tag.code = some tag := by
  cases tag with
  | short byte =>
    have hhigh : (byte.toUInt16 >>> 8).toUInt8 = 0 := by
      apply UInt8.toNat_inj.mp
      have hbyte : byte.toNat < 256 := byte.toNat_lt
      simp only [UInt16.toNat_toUInt8, UInt16.toNat_shiftRight, UInt8.toNat_toUInt16, UInt16.reduceToNat,
        Nat.reduceMod, Nat.shiftRight_eq_div_pow, Nat.reducePow, UInt8.toNat_zero]
      omega
    have hescape : isEscape byte = false := htag
    simp [ofCode?, code, hhigh, hescape]
  | extended escape low =>
    have hlow : low.toNat < 256 := low.toNat_lt
    have hbyte : escape.toNat < 256 := escape.toNat_lt
    have hescape : isEscape escape = true := htag
    have hhigh : (wordOfBytes escape low >>> 8).toUInt8 = escape := by
      apply UInt8.toNat_inj.mp
      simp only [UInt16.toNat_toUInt8, UInt16.toNat_shiftRight, toNat_wordOfBytes, UInt16.reduceToNat,
        Nat.reduceMod, Nat.shiftRight_eq_div_pow, Nat.reducePow]
      omega
    have hrest : (wordOfBytes escape low).toUInt8 = low := by
      apply UInt8.toNat_inj.mp
      simp [toNat_wordOfBytes]
    have hne : escape ≠ 0 := by
      rintro rfl
      exact absurd hescape (by decide)
    simp [ofCode?, code, hhigh, hrest, hne, hescape]

end OpcodeTag

namespace Opcode

theorem tag_proper (op : Opcode) : op.tag.Proper := by
  cases op <;> exact rfl

theorem ofCode?_eq_some_iff {code : UInt16} {op : Opcode} : ofCode? code = some op ↔ code = op.code := by
  constructor
  · intro hcode
    have hfound := List.find?_some hcode
    exact (eq_of_beq hfound).symm
  · rintro rfl
    exact ofCode?_code op

theorem ofCode?_code_eq_some_iff {tag : OpcodeTag} (htag : tag.Proper) {op : Opcode} :
    ofCode? tag.code = some op ↔ tag = op.tag := by
  constructor
  · intro hcode
    have hsome := OpcodeTag.ofCode?_code htag
    rw [ofCode?_eq_some_iff.mp hcode, ofCode?_tag] at hsome
    exact (Option.some.inj hsome).symm
  · rintro rfl
    rw [code_tag, ofCode?_code]

end Opcode

namespace Decoder

theorem reads_readOpcodeTag : Reads readOpcodeTag fun bytes tag => bytes = tag.bytes ∧ tag.Proper := by
  have hrest : ∀ first, Reads
      (if OpcodeTag.isEscape first then readByte >>= fun low => Pure.pure (OpcodeTag.extended first low)
        else Pure.pure (OpcodeTag.short first) : Decoder OpcodeTag)
      fun bytes tag => first :: bytes = tag.bytes ∧ tag.Proper := by
    intro first
    cases hescape : OpcodeTag.isEscape first with
    | true =>
      refine reads_readByte.map.congr fun bytes tag => ?_
      constructor
      · rintro ⟨low, rfl, rfl⟩
        exact ⟨rfl, hescape⟩
      · rintro ⟨hbytes, htag⟩
        cases tag with
        | short byte =>
          cases hbytes
          cases hescape.symm.trans htag
        | extended escape low =>
          cases hbytes
          exact ⟨low, rfl, rfl⟩
    | false =>
      refine (Reads.pure _).congr fun bytes tag => ?_
      constructor
      · rintro ⟨rfl, rfl⟩
        exact ⟨rfl, hescape⟩
      · rintro ⟨hbytes, htag⟩
        cases tag with
        | short byte =>
          cases hbytes
          exact ⟨rfl, rfl⟩
        | extended escape low =>
          cases hbytes
          cases hescape.symm.trans htag
  refine (reads_readByte.bind hrest).congr fun bytes tag => ?_
  constructor
  · rintro ⟨first, xs, ys, rfl, rfl, hbytes, htag⟩
    exact ⟨hbytes, htag⟩
  · rintro ⟨rfl, htag⟩
    cases tag with
    | short byte => exact ⟨byte, [byte], [], rfl, rfl, rfl, htag⟩
    | extended escape low => exact ⟨escape, [escape], [low], rfl, rfl, rfl, htag⟩

theorem reads_readOpcode : Reads readOpcode fun bytes op => bytes = op.tag.bytes := by
  unfold readOpcode
  refine (reads_readOpcodeTag.bind fun tag =>
    (?known : Reads _ fun bytes op => bytes = [] ∧ Opcode.ofCode? tag.code = some op)).congr fun bytes op => ⟨?_, ?_⟩
  case known =>
    cases Opcode.ofCode? tag.code with
    | none => exact (Reads.throw _).congr fun bytes op => by simp
    | some known => exact (Reads.pure known).congr fun bytes op => by simp [eq_comm]
  · rintro ⟨tag, xs, ys, rfl, ⟨rfl, htag⟩, rfl, hop⟩
    rw [(Opcode.ofCode?_code_eq_some_iff htag).mp hop, List.append_nil]
  · rintro rfl
    refine ⟨op.tag, op.tag.bytes, [], (List.append_nil _).symm, ⟨rfl, op.tag_proper⟩, rfl, ?_⟩
    exact (Opcode.ofCode?_code_eq_some_iff op.tag_proper).mpr rfl

end Decoder

/-! ## Readers made of reading bytes

All that a reader of this format does with its source is to ask for one byte after another, and all that it finds wrong
by itself is what it has read. So what holds of reading a byte, and of one reader after another, holds of every reader.
-/

/-- The error is about what was read, and not about the source. -/
def DecodeError.OfContent : DecodeError → Prop
  | .unknownOpcode _ | .negativeCount _ => True
  | .unexpectedEnd | .trailingBytes _ | .brokenSource => False

namespace Decoder

/-- The reader takes bytes one after another, and may refuse what it has read. -/
inductive Bytewise : {α : Type} → Decoder α → Prop where
  | pure {α : Type} (a : α) : Bytewise (Pure.pure a)
  | throw {α : Type} {e : DecodeError} (he : e.OfContent) : Bytewise (MonadExcept.throw e : Decoder α)
  | readByte : Bytewise Decoder.readByte
  | bind {α β : Type} {read : Decoder α} {next : α → Decoder β} (hread : Bytewise read)
    (hnext : ∀ a, Bytewise (next a)) : Bytewise (read >>= next)

theorem bytewise_readBytes (n : Nat) : Bytewise (readBytes n) := by
  induction n with
  | zero => exact .pure []
  | succ n ih => exact .bind .readByte fun byte => .bind ih fun rest => .pure (byte :: rest)

theorem bytewise_readNumber (width : Nat) : Bytewise (readNumber width) :=
  .bind (bytewise_readBytes width) fun bytes => .pure (ofLittleEndian bytes)

theorem bytewise_readOpcodeTag : Bytewise readOpcodeTag := by
  refine .bind .readByte fun first => ?_
  split
  · exact .bind .readByte fun low => .pure (OpcodeTag.extended first low)
  · exact .pure (OpcodeTag.short first)

theorem bytewise_readOpcode : Bytewise readOpcode := by
  refine .bind bytewise_readOpcodeTag fun tag => ?_
  cases Opcode.ofCode? tag.code with
  | some op => exact .pure op
  | none => exact .throw trivial

theorem bytewise_readInstruction : Bytewise readInstruction := by
  refine .bind bytewise_readOpcode fun op => .bind (bytewise_readNumber op.width) fun payload => ?_
  cases operand? op payload with
  | some operand => exact .pure _
  | none => exact .throw trivial

theorem bytewise_readInstructions (n : Nat) (done : List Instruction) : Bytewise (readInstructions n done) := by
  induction n generalizing done with
  | zero => exact .pure done.reverse
  | succ n ih => exact .bind bytewise_readInstruction fun i => ih (i :: done)

theorem bytewise_readExpression : Bytewise readExpression := by
  refine .bind (bytewise_readNumber 4) fun tag => .bind (bytewise_readNumber 4) fun count => ?_
  split
  · exact .bind (bytewise_readInstructions count []) fun code => .pure _
  · exact .throw trivial

end Decoder

end RefMachine
