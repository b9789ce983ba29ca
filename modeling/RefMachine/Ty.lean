/-!
# Types and type tags

A type is one of thirteen names with declared bases. At run time a type travels as a 32-bit tag: its own bit together
with the bits of its bases. Any pattern is a tag, and only some patterns name a type.
-/

namespace RefMachine

/-- A named type. `value`, `reference` and `number` are abstract: no value has one of them as its own type. -/
inductive Ty where
  | error | value | reference | number
  | tuple | list | string | expression
  | type | boolean | integer | float | opcode
  deriving DecidableEq

namespace Ty

/-- Every type, in the order of its tag's own bit. -/
def all : List Ty :=
  [error, value, reference, number, tuple, list, string, expression, type, boolean, integer, float, opcode]

def name : Ty → String
  | error => "Error"
  | value => "Value"
  | reference => "Reference"
  | number => "Number"
  | tuple => "Tuple"
  | list => "List"
  | string => "String"
  | expression => "Expression"
  | type => "Type"
  | boolean => "Boolean"
  | integer => "Integer"
  | float => "Float"
  | opcode => "Opcode"

def ofName? (s : String) : Option Ty :=
  all.find? fun t => t.name == s

/-- The direct bases, in declared order. -/
def bases : Ty → List Ty
  | error | value | reference | number => []
  | tuple | list | string | expression => [reference]
  | type | boolean | opcode => [value]
  | integer | float => [value, number]

/-- A type is itself and each of its bases. No base has bases of its own, so one level is all there is. -/
def is (t other : Ty) : Bool :=
  t == other || t.bases.contains other

def isAbstract : Ty → Bool
  | value | reference | number => true
  | _ => false

/-- Whether values of this type are handles into the heap. -/
def isReference : Ty → Bool
  | tuple | list | string | expression => true
  | _ => false

end Ty

/-- The bit pattern that stands for a type at run time. -/
structure TypeTag where
  bits : UInt32
  deriving DecidableEq

namespace Ty

/-- The bit that this type alone sets; the error type sets none. -/
def ownBit : Ty → UInt32
  | error => 0
  | value => 0x2
  | reference => 0x4
  | number => 0x8
  | tuple => 0x10
  | list => 0x20
  | string => 0x40
  | expression => 0x80
  | type => 0x100
  | boolean => 0x200
  | integer => 0x400
  | float => 0x800
  | opcode => 0x1000

/-- The own bit with the bits of the bases. The lowest bit marks the abstract types. -/
def tag (t : Ty) : TypeTag :=
  ⟨t.bases.foldl (fun bits base => bits ||| base.ownBit) (t.ownBit ||| if t.isAbstract then 1 else 0)⟩

theorem testBit_foldl_ownBit (ts : List Ty) (bits : UInt32) (i : Nat) :
    (ts.foldl (fun bits t => bits ||| t.ownBit) bits).toNat.testBit i = true ↔
      bits.toNat.testBit i = true ∨ ∃ t ∈ ts, t.ownBit.toNat.testBit i = true := by
  induction ts generalizing bits with
  | nil => simp
  | cons t ts ih =>
    rw [List.foldl_cons, ih, UInt32.toNat_or, Nat.testBit_or, Bool.or_eq_true]
    simp [or_assoc]

/-- The bits of a tag are the own bits of all that its type is, and the lowest one if the type is abstract. -/
theorem testBit_tag (t : Ty) (i : Nat) :
    t.tag.bits.toNat.testBit i = true ↔
      (∃ u, t.is u = true ∧ u.ownBit.toNat.testBit i = true) ∨ t.isAbstract = true ∧ i = 0 := by
  have hlowest : (if t.isAbstract then (1 : UInt32) else 0).toNat.testBit i = true ↔ t.isAbstract = true ∧ i = 0 := by
    cases t.isAbstract <;> simp [Nat.testBit_one_eq_true_iff_self_eq_zero]
  have his : (∃ u, t.is u = true ∧ u.ownBit.toNat.testBit i = true) ↔
      t.ownBit.toNat.testBit i = true ∨ ∃ u ∈ t.bases, u.ownBit.toNat.testBit i = true := by
    simp only [is, Bool.or_eq_true, beq_iff_eq, List.contains_iff_mem, or_and_right, exists_or]
    simp
  rw [tag, testBit_foldl_ownBit, UInt32.toNat_or, Nat.testBit_or, Bool.or_eq_true, hlowest, his]
  exact or_right_comm

end Ty

/-! ## Hexadecimal text of fixed width -/

/-- The upper-case hexadecimal digit of a number below sixteen. -/
def hexDigit (n : Nat) : Char :=
  if n < 10 then Char.ofNat (48 + n) else Char.ofNat (55 + n)

/-- The lowest `width` hexadecimal digits of `n`, most significant first. -/
def hexDigits : Nat → Nat → List Char
  | 0, _ => []
  | width + 1, n => hexDigits width (n / 16) ++ [hexDigit (n % 16)]

/-- The number `n` in `width` hexadecimal places, marked as hexadecimal. -/
def hexText (width n : Nat) : String :=
  "0x" ++ String.ofList (hexDigits width n)

/-! ## Tags -/

namespace TypeTag

/-- The run-time subtype test: the tags share a bit and the left one is not the smaller number. It is coarser than
`Ty.is` (`isA_of_is`): every tag that carries the bit of `value` passes against every smaller such tag. -/
def isA (tag other : TypeTag) : Bool :=
  (tag.bits &&& other.bits) != 0 && decide (other.bits ≤ tag.bits)

theorem isA_iff {tag other : TypeTag} :
    tag.isA other = true ↔
      (∃ i, tag.bits.toNat.testBit i = true ∧ other.bits.toNat.testBit i = true) ∧
        other.bits.toNat ≤ tag.bits.toNat := by
  have hcommon : (tag.bits &&& other.bits) ≠ 0 ↔
      ∃ i, tag.bits.toNat.testBit i = true ∧ other.bits.toNat.testBit i = true := by
    rw [ne_eq, ← UInt32.toNat_inj, UInt32.toNat_and]
    constructor
    · intro hne
      obtain ⟨i, hi⟩ := Nat.exists_testBit_of_ne_zero hne
      rw [Nat.testBit_and, Bool.and_eq_true] at hi
      exact ⟨i, hi⟩
    · rintro ⟨i, hi⟩ hzero
      rw [← Bool.and_eq_true, ← Nat.testBit_and, hzero] at hi
      simp at hi
  rw [isA, Bool.and_eq_true, bne_iff_ne, hcommon, decide_eq_true_iff, UInt32.le_iff_toNat_le]

theorem isA_of_is {t other : Ty} (his : t.is other = true) (hother : other ≠ .error) : t.tag.isA other.tag = true := by
  obtain ⟨i, -, hi⟩ : ∃ i < 13, other.ownBit.toNat.testBit i = true := by
    cases other <;> first | exact absurd rfl hother | decide
  have hself : other.is other = true := by
    simp [Ty.is]
  have hle : other.tag.bits.toNat ≤ t.tag.bits.toNat := by
    cases t <;> cases other <;> first | exact absurd his (by decide) | decide
  refine isA_iff.mpr ⟨⟨i, (t.testBit_tag i).mpr ?_, (other.testBit_tag i).mpr ?_⟩, hle⟩
  · exact .inl ⟨other, his, hi⟩
  · exact .inl ⟨other, hself, hi⟩

/-- The type that has exactly this tag. -/
def ty? (tag : TypeTag) : Option Ty :=
  Ty.all.find? fun t => t.tag == tag

/-- The type's name, or the pattern in eight hexadecimal places. -/
def text (tag : TypeTag) : String :=
  match tag.ty? with
  | some t => t.name
  | none => hexText 8 tag.bits.toNat

end TypeTag

end RefMachine
