import RefMachine.Proofs.RoundTrip

/-!
# Reading from a stream

A reader looks at no byte behind those that it takes. So bytes that come later change neither its answer nor its error,
unless the error is that there were no more bytes (`Incremental`). A reader made of incremental ones is incremental
(`Incremental.bind`), and all readers of this format are.

It follows that expressions mark their own ends (`reading_incremental`). What is cut off anywhere before its end is
reported as cut off, what follows an expression is reported as left over, and expressions that were written one after
the other are read one after the other.
-/

namespace RefMachine

/-- The source with more bytes to come after its own. -/
def Source.followedBy (source : Source) (more : List UInt8) : Source :=
  { source with bytes := source.bytes ++ more }

/-- With more bytes to come the reader answers the same and leaves these bytes too, or fails the same, unless it failed
because its bytes were used up. -/
def Incremental {α : Type} (read : Decoder α) : Prop :=
  ∀ source more,
    Ends (fun a rest => read (source.followedBy more) = .ok a (rest.followedBy more))
      (fun e rest => e ≠ .unexpectedEnd → read (source.followedBy more) = .error e (rest.followedBy more))
      (read source)

namespace Incremental

variable {α β : Type} {read : Decoder α}

theorem pure (a : α) : Incremental (Pure.pure a : Decoder α) :=
  fun _ _ => rfl

theorem throw (e : DecodeError) : Incremental (MonadExcept.throw e : Decoder α) :=
  fun _ _ _ => rfl

theorem bind {next : α → Decoder β} (hread : Incremental read) (hnext : ∀ a, Incremental (next a)) :
    Incremental (read >>= next) := by
  intro source more
  have hfirst := hread source more
  cases hrun : read source with
  | ok a rest =>
    rw [bind_apply_of_ok hrun, bind_apply_of_ok (hfirst.of_ok hrun)]
    exact hnext a rest more
  | error e rest =>
    rw [bind_apply_of_error hrun]
    intro hne
    exact bind_apply_of_error (hfirst.of_error hrun hne) next

end Incremental

namespace Decoder

theorem incremental_readByte : Incremental readByte := by
  intro source more
  have hsame : (source.followedBy more).failure? = source.failure? := rfl
  cases hfailure : source.failure? with
  | some f =>
    rw [readByte_of_failure hfailure]
    exact fun _ => readByte_of_failure (hsame.trans hfailure)
  | none =>
    cases hbytes : source.bytes with
    | nil =>
      rw [readByte_of_nil hfailure hbytes]
      exact fun hne => absurd rfl hne
    | cons byte rest =>
      have hmore : (source.followedBy more).bytes = byte :: (rest ++ more) := by
        rw [Source.followedBy, hbytes, List.cons_append]
      have hadvance : (source.followedBy more).advance = source.advance.followedBy more := by
        simp [Source.advance, Source.followedBy, hbytes]
      have hread := readByte_of_cons (hsame.trans hfailure) hmore
      rw [hadvance] at hread
      rw [readByte_of_cons hfailure hbytes]
      exact hread

theorem Bytewise.incremental {α : Type} {read : Decoder α} (hread : Bytewise read) : Incremental read := by
  induction hread with
  | pure a => exact .pure a
  | throw he => exact .throw _
  | readByte => exact incremental_readByte
  | bind _ _ hread hnext => exact hread.bind hnext

theorem incremental_readInstruction : Incremental readInstruction :=
  bytewise_readInstruction.incremental

theorem incremental_readExpression : Incremental readExpression :=
  bytewise_readExpression.incremental

end Decoder

/-! ## Where expressions end -/

namespace Expression

variable {e : Expression} {bytes more : List UInt8}

/-- `decode` finds an `unexpectedEnd` in bytes that are cut off before the end of an expression. -/
theorem decode_of_cut (hdecode : decode (bytes ++ more) = .ok e) (hmore : more ≠ []) :
    decode bytes = .error .unexpectedEnd := by
  have hread := Decoder.incremental_readExpression ⟨bytes, none⟩ more
  unfold decode at hdecode ⊢
  cases hrun : Decoder.readExpression ⟨bytes, none⟩ with
  | ok e' rest =>
    -- The reader would have left the bytes that were cut off.
    have hlonger : Decoder.readExpression ⟨bytes ++ more, none⟩ = _ := hread.of_ok hrun
    rw [hlonger] at hdecode
    simp [Source.followedBy, hmore] at hdecode
  | error e' rest =>
    by_cases hend : e' = .unexpectedEnd
    · rw [hend]
    · have hlonger : Decoder.readExpression ⟨bytes ++ more, none⟩ = _ := hread.of_error hrun hend
      rw [hlonger] at hdecode
      cases hdecode

theorem length_le_of_encode (hencode : e.encode = .ok bytes) : e.code.length ≤ 0x7FFFFFFF := by
  by_contra hlong
  have hrun : Encoder.writeExpression e {} = .error (.tooManyInstructions e.code.length) {} := by
    rw [Encoder.writeExpression, if_neg (by omega)]
    rfl
  rw [encode, Encoder.bytes, hrun] at hencode
  cases hencode

theorem decode_encoded (hencode : e.encode = .ok bytes) : decode bytes = .ok e := by
  have hcount := length_le_of_encode hencode
  obtain ⟨hfits, rfl⟩ := (encode_eq_ok_iff hcount).mp hencode
  exact decode_bytes hcount hfits

theorem read_encoded (hencode : e.encode = .ok bytes) (more : List UInt8) :
    Decoder.readExpression ⟨bytes ++ more, none⟩ = .ok e ⟨more, none⟩ := by
  obtain ⟨s, rfl, rfl⟩ := decode_eq_ok_iff.mp (decode_encoded hencode)
  exact (Decoder.reads_readExpression _ _ _).mpr ⟨s.bytes, ⟨s, rfl, rfl⟩, Source.yields_iff.mpr ⟨rfl, rfl⟩⟩

theorem ne_nil_of_encode (hencode : e.encode = .ok bytes) : bytes ≠ [] := by
  obtain ⟨-, rfl⟩ := (encode_eq_ok_iff (length_le_of_encode hencode)).mp hencode
  have hlength := e.length_bytes
  intro hnil
  rw [hnil, List.length_nil] at hlength
  omega

end Expression

/-! ## One expression after another -/

section Sequence

variable {items : List (Expression × List UInt8)}

theorem length_le_length_flatMap (hitems : ∀ item ∈ items, item.1.encode = .ok item.2) :
    items.length ≤ (items.flatMap Prod.snd).length := by
  induction items with
  | nil => exact Nat.zero_le _
  | cons item items ih =>
    have hrest := ih fun other hother => hitems other (List.mem_cons_of_mem item hother)
    have hne := Expression.ne_nil_of_encode (hitems item List.mem_cons_self)
    have hpos := List.length_pos_iff.mpr hne
    rw [List.flatMap_cons, List.length_append, List.length_cons]
    omega

/-- `readEach` reads encoded expressions back one after the other, each with the number of bytes behind it. -/
theorem Decoder.readEach_encoded (hitems : ∀ item ∈ items, item.1.encode = .ok item.2) {reads : Nat}
    (hreads : items.length ≤ reads) (i : Nat) :
    (readEach readExpression reads ⟨items.flatMap Prod.snd, none⟩)[i]? =
      items[i]?.map fun item => (.ok item.1, ((items.drop (i + 1)).flatMap Prod.snd).length) := by
  induction items generalizing reads i with
  | nil => cases reads <;> rfl
  | cons item items ih =>
    obtain ⟨reads, rfl⟩ : ∃ n, reads = n + 1 := Nat.exists_eq_add_of_le' (Nat.le_trans (Nat.le_add_left 1 _) hreads)
    have hencode := hitems item List.mem_cons_self
    have hne := Expression.ne_nil_of_encode hencode
    have hempty : (item.2 ++ items.flatMap Prod.snd).isEmpty = false := by
      simp [hne]
    simp only [readEach, List.flatMap_cons, hempty, Bool.false_eq_true, if_false, Expression.read_encoded hencode]
    cases i with
    | zero => rfl
    | succ i =>
      have hrest : ∀ other ∈ items, other.1.encode = .ok other.2 :=
        fun other hother => hitems other (List.mem_cons_of_mem item hother)
      exact ih hrest (Nat.le_of_succ_le_succ hreads) i

end Sequence

/-- **Streams.** Later bytes change no answer and no error of the readers but `unexpectedEnd`. So an expression cut off
before its end is found to be cut off, bytes behind an expression are found to be left over, and expressions written one
after the other are read in order, with the bytes of the later ones left after each. -/
theorem reading_incremental :
    Incremental Decoder.readExpression ∧ Incremental Decoder.readInstruction ∧
      (∀ bytes cut e, Expression.decode bytes = .ok e → cut <+: bytes → cut ≠ bytes →
        Expression.decode cut = .error .unexpectedEnd) ∧
      (∀ (e : Expression) bytes more, e.encode = .ok bytes → more ≠ [] →
        Expression.decode (bytes ++ more) = .error (.trailingBytes more.length)) ∧
      ∀ items : List (Expression × List UInt8), (∀ item ∈ items, item.1.encode = .ok item.2) →
        ∀ i : Nat, (Decoder.readAll Decoder.readExpression (items.flatMap Prod.snd))[i]? =
          items[i]?.map fun item => (.ok item.1, ((items.drop (i + 1)).flatMap Prod.snd).length) := by
  refine ⟨Decoder.incremental_readExpression, Decoder.incremental_readInstruction, ?_, ?_, ?_⟩
  · rintro bytes cut e hdecode ⟨more, rfl⟩ hne
    refine Expression.decode_of_cut hdecode fun hmore => hne ?_
    rw [hmore, List.append_nil]
  · intro e bytes more hencode hmore
    rw [Expression.decode, Expression.read_encoded hencode more]
    exact if_neg (by simpa using hmore)
  · intro items hitems i
    exact Decoder.readEach_encoded hitems (length_le_length_flatMap hitems) i

/-- Two expressions in a row, one byte behind them, and the first without its last byte. -/
theorem reading_incremental_pair :
    let first : Expression := ⟨⟨9⟩, [.loadBoolean true]⟩
    let second : Expression := ⟨⟨3⟩, [.newExpression 258, .nop]⟩
    Expression.decode [9, 0, 0, 0, 1, 0, 0, 0, 11] = .error .unexpectedEnd ∧
      Expression.decode ([9, 0, 0, 0, 1, 0, 0, 0, 11, 1] ++ [0]) = .error (.trailingBytes 1) ∧
      (Decoder.readAll Decoder.readExpression
        ([9, 0, 0, 0, 1, 0, 0, 0, 11, 1] ++ [3, 0, 0, 0, 2, 0, 0, 0, 251, 1, 2, 1, 0]))[0]? = some (.ok first, 13) ∧
      (Decoder.readAll Decoder.readExpression
        ([9, 0, 0, 0, 1, 0, 0, 0, 11, 1] ++ [3, 0, 0, 0, 2, 0, 0, 0, 251, 1, 2, 1, 0]))[1]? = some (.ok second, 0) := by
  intro first second
  obtain ⟨-, -, hcut, htrailing, heach⟩ := reading_incremental
  have hfirst : first.encode = .ok [9, 0, 0, 0, 1, 0, 0, 0, 11, 1] := by decide
  have hsecond : second.encode = .ok [3, 0, 0, 0, 2, 0, 0, 0, 251, 1, 2, 1, 0] := by decide
  have hitems := heach [(first, [9, 0, 0, 0, 1, 0, 0, 0, 11, 1]), (second, [3, 0, 0, 0, 2, 0, 0, 0, 251, 1, 2, 1, 0])]
    (by simp [hfirst, hsecond])
  refine ⟨?_, htrailing first _ [0] hfirst (by decide), hitems 0, hitems 1⟩
  exact hcut [9, 0, 0, 0, 1, 0, 0, 0, 11, 1] _ first (by decide) ⟨[1], rfl⟩ (by decide)

end RefMachine
