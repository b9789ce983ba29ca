import RefMachine.Proofs.Heap.Rendering
import Std.Data.String.ToInt

/-!
# Displayed data can be read in one way only

A text is read from the left. Its first character tells what kind of data follows (`Ty.ofFirst?`), and each kind shows
where it ends: a quote inside a string is doubled, so a single one closes it; the name of a type or of an opcode runs to
the closing mark, which stands in no name; a number runs to the first character that is neither a digit nor a sign; and
tuples and lists are read item by item. So where a separator or nothing follows, one tree is read and one rest is left
(`Tree.Plain.reads`), and values that are displayed alike unfold to the same tree, in whatever heaps they are
(`displayed_data_unambiguous`).

Numbers with a fraction are left out, since one without a fractional part is written like an integer, and so are
expressions, whose operands are written as kind and slot.
-/

namespace RefMachine

/-! ## Where a text ends -/

theorem append_inj_of_class {p : Char → Prop} {xs ys rest rest' : List Char} (hxs : ∀ c ∈ xs, p c)
    (hys : ∀ c ∈ ys, p c) (hrest : ∀ c ∈ rest.head?, ¬ p c) (hrest' : ∀ c ∈ rest'.head?, ¬ p c)
    (heq : xs ++ rest = ys ++ rest') : xs = ys ∧ rest = rest' := by
  induction xs generalizing ys with
  | nil =>
    cases ys with
    | nil => exact ⟨rfl, heq⟩
    | cons y ys =>
      have hhead : y ∈ rest.head? := by simp [show rest = y :: ys ++ rest' from heq]
      exact absurd (hys y List.mem_cons_self) (hrest y hhead)
  | cons x xs ih =>
    cases ys with
    | nil =>
      have hhead : x ∈ rest'.head? := by simp [show rest' = x :: xs ++ rest from heq.symm]
      exact absurd (hxs x List.mem_cons_self) (hrest' x hhead)
    | cons y ys =>
      simp only [List.cons_append, List.cons.injEq] at heq
      obtain ⟨rfl, heq⟩ := heq
      rw [List.forall_mem_cons] at hxs hys
      obtain ⟨rfl, hrests⟩ := ih hxs.2 hys.2 heq
      exact ⟨rfl, hrests⟩

/-- The characters of a text with every quote doubled. -/
def doubled (cs : List Char) : List Char :=
  cs.flatMap fun c => if c = '"' then ['"', '"'] else [c]

theorem doubled_cons (c : Char) (cs : List Char) :
    doubled (c :: cs) = (if c = '"' then ['"', '"'] else [c]) ++ doubled cs :=
  List.flatMap_cons

theorem toList_quoted (text : String) : (quoted text).toList = '"' :: (doubled text.toList ++ ['"']) := by
  simp [quoted, doubled]

theorem doubled_append_inj {xs ys rest rest' : List Char} (hrest : rest.head? ≠ some '"')
    (hrest' : rest'.head? ≠ some '"') (heq : doubled xs ++ '"' :: rest = doubled ys ++ '"' :: rest') :
    xs = ys ∧ rest = rest' := by
  induction xs generalizing ys with
  | nil =>
    cases ys with
    | nil => exact ⟨rfl, (List.cons.inj heq).2⟩
    | cons y ys =>
      rw [doubled_cons] at heq
      split_ifs at heq with hy
      · have hquote : rest = '"' :: (doubled ys ++ '"' :: rest') := (List.cons.inj heq).2
        exact absurd (by rw [hquote, List.head?_cons]) hrest
      · exact absurd (List.cons.inj heq).1.symm hy
  | cons x xs ih =>
    cases ys with
    | nil =>
      rw [doubled_cons] at heq
      split_ifs at heq with hx
      · have hquote : '"' :: (doubled xs ++ '"' :: rest) = rest' := (List.cons.inj heq).2
        exact absurd (by rw [← hquote, List.head?_cons]) hrest'
      · exact absurd (List.cons.inj heq).1 hx
    | cons y ys =>
      rw [doubled_cons, doubled_cons] at heq
      have hsame : x = y ∧ doubled xs ++ '"' :: rest = doubled ys ++ '"' :: rest' := by
        split_ifs at heq with hx hy hy
        · exact ⟨hx.trans hy.symm, (List.cons.inj (List.cons.inj heq).2).2⟩
        · exact absurd (List.cons.inj heq).1.symm hy
        · exact absurd (List.cons.inj heq).1 hx
        · exact List.cons.inj heq
      obtain ⟨rfl, hrests⟩ := ih hsame.2
      exact ⟨congrArg (· :: xs) hsame.1, hrests⟩

/-! ## The texts of types -/

theorem hexDigit_inj {m n : Nat} (hm : m < 16) (hn : n < 16) (heq : hexDigit m = hexDigit n) : m = n := by
  have hall : ∀ m < 16, ∀ n < 16, hexDigit m = hexDigit n → m = n := by decide
  exact hall m hm n hn heq

theorem hexDigits_inj {width m n : Nat} (hm : m < 16 ^ width) (hn : n < 16 ^ width)
    (heq : hexDigits width m = hexDigits width n) : m = n := by
  induction width generalizing m n with
  | zero => omega
  | succ width ih =>
    obtain ⟨hhigh, hlow⟩ := List.append_inj' heq rfl
    have hquotient : m / 16 = n / 16 := ih (by omega) (by omega) hhigh
    have hremainder : m % 16 = n % 16 := hexDigit_inj (by omega) (by omega) (List.cons.inj hlow).1
    omega

theorem ne_of_mem_hexDigits {width n : Nat} {c : Char} (hc : c ∈ hexDigits width n) : c ≠ '>' := by
  have hdigit : ∀ m < 16, hexDigit m ≠ '>' := by decide
  induction width generalizing n with
  | zero => simp [hexDigits] at hc
  | succ width ih =>
    rw [hexDigits, List.mem_append, List.mem_singleton] at hc
    rcases hc with hc | rfl
    · exact ih hc
    · exact hdigit (n % 16) (Nat.mod_lt n (by omega))

theorem Ty.name_inj {t t' : Ty} (heq : t.name = t'.name) : t = t' := by
  have hname : ∀ t : Ty, Ty.ofName? t.name = some t := by
    intro t
    cases t <;> decide
  have hsome := hname t
  rw [heq, hname t'] at hsome
  exact (Option.some.inj hsome).symm

theorem Opcode.name_inj {op op' : Opcode} (heq : op.name = op'.name) : op = op' := by
  have hname : ∀ op : Opcode, Opcode.ofName? op.name = some op := by
    intro op
    cases op <;> decide
  have hsome := hname op
  rw [heq, hname op'] at hsome
  exact (Option.some.inj hsome).symm

namespace TypeTag

variable {tag tag' : TypeTag}

theorem tag_of_ty? {t : Ty} (ht : tag.ty? = some t) : t.tag = tag :=
  eq_of_beq (List.find?_some (p := fun t : Ty => t.tag == tag) ht)

theorem hexText_ne_name (n : Nat) (t : Ty) : hexText 8 n ≠ t.name := by
  intro heq
  have hfirst : (hexText 8 n).toList.head? = some '0' := by simp [hexText]
  rw [heq] at hfirst
  cases t <;> exact absurd hfirst (by decide)

theorem text_inj (heq : tag.text = tag'.text) : tag = tag' := by
  unfold text at heq
  cases ht : tag.ty? with
  | some t =>
    cases ht' : tag'.ty? with
    | some t' =>
      rw [ht, ht'] at heq
      rw [← tag_of_ty? ht, ← tag_of_ty? ht', Ty.name_inj heq]
    | none =>
      rw [ht, ht'] at heq
      exact absurd heq.symm (hexText_ne_name _ t)
  | none =>
    cases ht' : tag'.ty? with
    | some t' =>
      rw [ht, ht'] at heq
      exact absurd heq (hexText_ne_name _ t')
    | none =>
      rw [ht, ht'] at heq
      have hdigits : hexDigits 8 tag.bits.toNat = hexDigits 8 tag'.bits.toNat := by
        simpa [hexText] using congrArg String.toList heq
      have hbits := hexDigits_inj tag.bits.toNat_lt tag'.bits.toNat_lt hdigits
      exact congrArg TypeTag.mk (UInt32.toNat_inj.mp hbits)

theorem ne_of_mem_text {c : Char} (hc : c ∈ tag.text.toList) : c ≠ '>' := by
  unfold text at hc
  cases ht : tag.ty? with
  | some t =>
    rw [ht] at hc
    have hname : '>' ∉ t.name.toList := by cases t <;> decide
    exact ne_of_mem_of_not_mem hc hname
  | none =>
    rw [ht] at hc
    simp only [hexText, String.toList_append, String.toList_ofList, List.mem_append] at hc
    rcases hc with hc | hc
    · have hmark : '>' ∉ "0x".toList := by decide
      exact ne_of_mem_of_not_mem hc hmark
    · exact ne_of_mem_hexDigits hc

end TypeTag

theorem Opcode.ne_of_mem_name (op : Opcode) : ∀ c ∈ op.name.toList, c ≠ '|' := by
  have hname : '|' ∉ op.name.toList := by cases op <;> decide
  exact fun c hc => ne_of_mem_of_not_mem hc hname

/-! ## Integers -/

/-- The characters of an integer. -/
def IsNumeral (c : Char) : Prop :=
  c.isDigit = true ∨ c = '-'

theorem isNumeral_of_mem_repr {n : Int} {c : Char} (hc : c ∈ n.repr.toList) : IsNumeral c := by
  rw [Int.repr_eq_if] at hc
  split_ifs at hc
  · rw [Nat.toList_repr] at hc
    exact .inl (Nat.isDigit_of_mem_toDigits (by omega) (by omega) hc)
  · rw [String.toList_append, Nat.toList_repr, List.mem_append] at hc
    rcases hc with hc | hc
    · exact .inr (by simpa using hc)
    · exact .inl (Nat.isDigit_of_mem_toDigits (by omega) (by omega) hc)

theorem exists_cons_of_repr (n : Int) : ∃ c cs, n.repr.toList = c :: cs := by
  apply List.exists_cons_of_ne_nil
  rw [Int.repr_eq_if]
  split_ifs
  · rw [Nat.toList_repr]
    exact Nat.toDigits_ne_nil
  · simp

/-! ## Trees -/

/-- The type of the data whose texts begin with a character. -/
def Ty.ofFirst? (c : Char) : Option Ty :=
  if c.isDigit ∨ c = '-' then some .integer
  else if c = '#' then some .error
  else if c = 't' ∨ c = 'f' then some .boolean
  else if c = '<' then some .type
  else if c = '|' then some .opcode
  else if c = '"' then some .string
  else if c = '(' then some .tuple
  else if c = '[' then some .list
  else none

/-- The text that follows is a separator with what comes after it, or nothing. -/
def Separates (rest : List Char) : Prop :=
  ∀ c ∈ rest.head?, c = ',' ∨ c = ')' ∨ c = ']'

theorem Separates.not_isNumeral {rest : List Char} (hrest : Separates rest) : ∀ c ∈ rest.head?, ¬ IsNumeral c := by
  intro c hc
  rcases hrest c hc with rfl | rfl | rfl <;> simp [IsNumeral, Char.isDigit]

theorem Separates.head?_ne {rest : List Char} (hrest : Separates rest) : rest.head? ≠ some '"' := by
  intro hhead
  have hquote := hrest '"' hhead
  simp at hquote

theorem separates_nil : Separates [] := by
  simp [Separates]

theorem separates_cons {c : Char} (hc : c = ',' ∨ c = ')' ∨ c = ']') (rest : List Char) : Separates (c :: rest) := by
  intro c' hc'
  rw [List.head?_cons, Option.mem_some_iff] at hc'
  exact hc' ▸ hc

namespace Tree

/-- The tree is made of what the display tells apart: no floating-point number and no expression stands in it. -/
inductive Plain : Tree → Prop where
  | error : Plain .error
  | boolean (b : Bool) : Plain (.boolean b)
  | integer (n : Int64) : Plain (.integer n)
  | type (tag : TypeTag) : Plain (.type tag)
  | opcode (op : Opcode) : Plain (.opcode op)
  | string (text : String) : Plain (.string text)
  | tuple {items : List Tree} (hitems : ∀ t ∈ items, Plain t) : Plain (.tuple items)
  | list {items : List Tree} (hitems : ∀ t ∈ items, Plain t) : Plain (.list items)

/-- In front of a separator, the text of this tree is the text of no other, and what is left is the same. -/
def Reads (t : Tree) : Prop :=
  ∀ ⦃t' : Tree⦄ ⦃rest rest' : List Char⦄, t'.Plain → Separates rest → Separates rest' →
    t.text.toList ++ rest = t'.text.toList ++ rest' → t = t' ∧ rest = rest'

variable {t t' : Tree} {ts ts' : List Tree} {rest rest' : List Char}

theorem Plain.exists_first (ht : t.Plain) : ∃ c cs, t.text.toList = c :: cs ∧ Ty.ofFirst? c = some t.ty := by
  cases ht with
  | error => exact ⟨_, _, rfl, by decide⟩
  | boolean b => cases b <;> exact ⟨_, _, rfl, by decide⟩
  | integer n =>
    obtain ⟨c, cs, hcs⟩ := exists_cons_of_repr n.toInt
    have hnumeral : IsNumeral c := isNumeral_of_mem_repr (hcs ▸ List.mem_cons_self)
    exact ⟨c, cs, hcs, if_pos hnumeral⟩
  | type tag => exact ⟨'<', _, by simp only [text, Value.text, String.toList_append]; rfl, rfl⟩
  | opcode op => exact ⟨'|', _, by simp only [text, Value.text, String.toList_append]; rfl, rfl⟩
  | string s => exact ⟨'"', _, toList_quoted s, rfl⟩
  | tuple => exact ⟨'(', _, by simp only [text, String.toList_append]; rfl, rfl⟩
  | list => exact ⟨'[', _, by simp only [text, String.toList_append]; rfl, rfl⟩

theorem Plain.ty_eq (ht : t.Plain) (ht' : t'.Plain) (heq : t.text.toList ++ rest = t'.text.toList ++ rest') :
    t.ty = t'.ty := by
  obtain ⟨c, cs, htext, hty⟩ := ht.exists_first
  obtain ⟨c', cs', htext', hty'⟩ := ht'.exists_first
  rw [htext, htext', List.cons_append, List.cons_append] at heq
  rw [(List.cons.inj heq).1, hty'] at hty
  exact (Option.some.inj hty).symm

/-! ## Items -/

/-- The texts of trees, each behind a comma. -/
def following (ts : List Tree) : List Char :=
  ts.flatMap fun t => ',' :: t.text.toList

theorem following_cons (t : Tree) (ts : List Tree) : following (t :: ts) = ',' :: (t.text.toList ++ following ts) :=
  List.flatMap_cons

theorem toList_intercalate_texts (t : Tree) (ts : List Tree) :
    (",".intercalate (texts (t :: ts))).toList = t.text.toList ++ following ts := by
  induction ts generalizing t with
  | nil => simp [texts, following]
  | cons s ts ih =>
    have hrest := ih s
    rw [String.toList_intercalate, texts, List.map_cons] at hrest
    rw [String.toList_intercalate, texts, texts, List.map_cons, List.map_cons, List.intercalate_cons_cons, hrest,
      following_cons]
    simp

theorem separates_following (ts : List Tree) {c : Char} (hc : c = ')' ∨ c = ']') (rest : List Char) :
    Separates (following ts ++ c :: rest) := by
  cases ts with
  | nil => exact separates_cons (.inr hc) rest
  | cons t ts =>
    rw [following_cons]
    exact separates_cons (.inl rfl) _

theorem following_inj {c : Char} (hc : c = ')' ∨ c = ']') (hts : ∀ t ∈ ts, t.Reads) (hts' : ∀ t ∈ ts', t.Plain)
    (heq : following ts ++ c :: rest = following ts' ++ c :: rest') : ts = ts' ∧ rest = rest' := by
  have hcomma : c ≠ ',' := by
    rintro rfl
    simp at hc
  induction ts generalizing ts' with
  | nil =>
    cases ts' with
    | nil => exact ⟨rfl, (List.cons.inj heq).2⟩
    | cons t' ts' =>
      rw [following_cons] at heq
      exact absurd (List.cons.inj heq).1 hcomma
  | cons t ts ih =>
    cases ts' with
    | nil =>
      rw [following_cons] at heq
      exact absurd (List.cons.inj heq).1.symm hcomma
    | cons t' ts' =>
      rw [List.forall_mem_cons] at hts hts'
      rw [following_cons, following_cons, List.cons_append, List.cons_append, List.append_assoc,
        List.append_assoc] at heq
      obtain ⟨rfl, hrests⟩ := hts.1 hts'.1 (separates_following ts hc rest) (separates_following ts' hc rest')
        (List.cons.inj heq).2
      obtain ⟨rfl, hrest⟩ := ih hts.2 hts'.2 hrests
      exact ⟨rfl, hrest⟩

/-- The texts of plain trees, between commas and up to a closing bracket, determine the trees and what follows. -/
theorem texts_inj {c : Char} (hc : c = ')' ∨ c = ']') (hts : ∀ t ∈ ts, t.Reads) (hts' : ∀ t ∈ ts', t.Plain)
    (hplain : ∀ t ∈ ts, t.Plain)
    (heq : (",".intercalate (texts ts)).toList ++ c :: rest = (",".intercalate (texts ts')).toList ++ c :: rest') :
    ts = ts' ∧ rest = rest' := by
  -- A bracket begins no text, so there is an item on both sides or on none.
  have hbracket : Ty.ofFirst? c = none := by
    rcases hc with rfl | rfl <;> decide
  have hfirst : ∀ {t : Tree} {rest rest' : List Char}, t.Plain → t.text.toList ++ rest ≠ c :: rest' := by
    intro t rest rest' ht heq
    obtain ⟨c', cs, htext, hty⟩ := ht.exists_first
    rw [htext] at heq
    rw [(List.cons.inj heq).1, hbracket] at hty
    cases hty
  cases ts with
  | nil =>
    cases ts' with
    | nil => exact ⟨rfl, (List.cons.inj heq).2⟩
    | cons t' ts' =>
      rw [toList_intercalate_texts t' ts', List.append_assoc] at heq
      exact absurd heq.symm (hfirst (hts' t' List.mem_cons_self))
  | cons t ts =>
    cases ts' with
    | nil =>
      rw [toList_intercalate_texts t ts, List.append_assoc] at heq
      exact absurd heq (hfirst (hplain t List.mem_cons_self))
    | cons t' ts' =>
      refine following_inj hc hts hts' ?_
      rw [toList_intercalate_texts, toList_intercalate_texts] at heq
      rw [following_cons, following_cons, List.cons_append, List.cons_append, heq]

/-! ## Reading a tree -/

theorem reads_error : error.Reads := by
  intro t' rest rest' ht' _ _ heq
  have hty := Plain.error.ty_eq ht' heq
  cases ht' with
  | error => exact ⟨rfl, List.append_cancel_left heq⟩
  | _ => simp [ty] at hty

theorem reads_boolean (b : Bool) : (boolean b).Reads := by
  intro t' rest rest' ht' _ _ heq
  have hty := (Plain.boolean b).ty_eq ht' heq
  cases ht' with
  | boolean b' => cases b <;> cases b' <;> simp_all [text, Value.text]
  | _ => simp [ty] at hty

theorem reads_integer (n : Int64) : (integer n).Reads := by
  intro t' rest rest' ht' hrest hrest' heq
  have hty := (Plain.integer n).ty_eq ht' heq
  cases ht' with
  | integer n' =>
    obtain ⟨hrepr, hrests⟩ := append_inj_of_class (fun _ => isNumeral_of_mem_repr) (fun _ => isNumeral_of_mem_repr)
      hrest.not_isNumeral hrest'.not_isNumeral heq
    have hint := Int.repr_injective (String.toList_inj.mp hrepr)
    exact ⟨congrArg Tree.integer (Int64.toInt_inj.mp hint), hrests⟩
  | _ => simp [ty] at hty

theorem reads_type (tag : TypeTag) : (type tag).Reads := by
  intro t' rest rest' ht' _ _ heq
  have hty := (Plain.type tag).ty_eq ht' heq
  cases ht' with
  | type tag' =>
    have heq' : tag.text.toList ++ '>' :: rest = tag'.text.toList ++ '>' :: rest' := by
      simpa [text, Value.text] using heq
    obtain ⟨htext, hrests⟩ := append_inj_of_class (fun _ => TypeTag.ne_of_mem_text) (fun _ => TypeTag.ne_of_mem_text)
      (by simp) (by simp) heq'
    exact ⟨congrArg Tree.type (TypeTag.text_inj (String.toList_inj.mp htext)), (List.cons.inj hrests).2⟩
  | _ => simp [ty] at hty

theorem reads_opcode (op : Opcode) : (opcode op).Reads := by
  intro t' rest rest' ht' _ _ heq
  have hty := (Plain.opcode op).ty_eq ht' heq
  cases ht' with
  | opcode op' =>
    have heq' : op.name.toList ++ '|' :: rest = op'.name.toList ++ '|' :: rest' := by
      simpa [text, Value.text] using heq
    obtain ⟨hname, hrests⟩ := append_inj_of_class op.ne_of_mem_name op'.ne_of_mem_name (by simp) (by simp) heq'
    exact ⟨congrArg Tree.opcode (Opcode.name_inj (String.toList_inj.mp hname)), (List.cons.inj hrests).2⟩
  | _ => simp [ty] at hty

theorem reads_string (s : String) : (string s).Reads := by
  intro t' rest rest' ht' hrest hrest' heq
  have hty := (Plain.string s).ty_eq ht' heq
  cases ht' with
  | string s' =>
    have heq' : doubled s.toList ++ '"' :: rest = doubled s'.toList ++ '"' :: rest' := by
      simpa [text, toList_quoted] using heq
    obtain ⟨hchars, hrests⟩ := doubled_append_inj hrest.head?_ne hrest'.head?_ne heq'
    exact ⟨congrArg Tree.string (String.toList_inj.mp hchars), hrests⟩
  | _ => simp [ty] at hty

theorem reads_tuple (hts : ∀ t ∈ ts, t.Plain) (hreads : ∀ t ∈ ts, t.Reads) : (tuple ts).Reads := by
  intro t' rest rest' ht' _ _ heq
  have hty := (Plain.tuple hts).ty_eq ht' heq
  cases ht' with
  | @tuple ts' hts' =>
    have heq' : (",".intercalate (texts ts)).toList ++ ')' :: rest =
        (",".intercalate (texts ts')).toList ++ ')' :: rest' := by
      simpa [text] using heq
    obtain ⟨rfl, hrests⟩ := texts_inj (.inl rfl) hreads hts' hts heq'
    exact ⟨rfl, hrests⟩
  | _ => simp [ty] at hty

theorem reads_list (hts : ∀ t ∈ ts, t.Plain) (hreads : ∀ t ∈ ts, t.Reads) : (list ts).Reads := by
  intro t' rest rest' ht' _ _ heq
  have hty := (Plain.list hts).ty_eq ht' heq
  cases ht' with
  | @list ts' hts' =>
    have heq' : (",".intercalate (texts ts)).toList ++ ']' :: rest =
        (",".intercalate (texts ts')).toList ++ ']' :: rest' := by
      simpa [text] using heq
    obtain ⟨rfl, hrests⟩ := texts_inj (.inr rfl) hreads hts' hts heq'
    exact ⟨rfl, hrests⟩
  | _ => simp [ty] at hty

/-- The text of a plain tree determines the tree and where its text ends. -/
theorem Plain.reads (ht : t.Plain) : t.Reads := by
  induction ht with
  | error => exact reads_error
  | boolean b => exact reads_boolean b
  | integer n => exact reads_integer n
  | type tag => exact reads_type tag
  | opcode op => exact reads_opcode op
  | string s => exact reads_string s
  | tuple hitems ih => exact reads_tuple hitems ih
  | list hitems ih => exact reads_list hitems ih

end Tree

/-- **Unambiguous display.** Two values that unfold to plain trees, each in its heap, have the same text only if the
trees are equal. -/
theorem displayed_data_unambiguous {heap heap' : Heap} {v v' : Value} {t t' : Tree} (hv : heap.Unfolds v t)
    (hv' : heap'.Unfolds v' t') (ht : t.Plain) (ht' : t'.Plain) (htext : heap.text v = heap'.text v') : t = t' := by
  rw [hv.text_eq, hv'.text_eq] at htext
  refine (ht.reads ht' separates_nil separates_nil ?_).1
  rw [htext]

/-- A string that looks like two, in a tuple with a list of a pattern that names no type. -/
def quotedPair (text : Handle) : Heap where
  strings := { slots := #[⟨some "a\",\"b", 1⟩, ⟨some "a\",\"b", 1⟩] }
  tuples :=
    { slots := #[⟨some [], Store.pinnedCount⟩, ⟨some [.ref .string text, .ref .list ⟨1⟩], 1⟩], hasSentinel := true }
  lists :=
    { slots := #[⟨some ⟨.error, .sentinel⟩, Store.pinnedCount⟩, ⟨some ⟨.type ⟨6⟩, .sentinel⟩, 1⟩], hasSentinel := true }

theorem quotedPair_unfolds {h : Handle} (hget : (quotedPair h).get? .string h = some "a\",\"b") :
    (quotedPair h).Unfolds (.ref .tuple ⟨1⟩) (.tuple [.string "a\",\"b", .list [.type ⟨6⟩]]) :=
  .tuple_of_forall₂ rfl (.cons (.string hget) (.cons (.cell rfl rfl (.atom rfl) .nil) .nil))

/-- Two tuples of different strings with the same text are displayed alike, and they are the same tree. -/
theorem displayed_data_unambiguous_quoted :
    (quotedPair ⟨0⟩).text (.ref .tuple ⟨1⟩) = "(\"a\"\",\"\"b\",[<0x00000006>])" ∧
      ∃ t t', (quotedPair ⟨0⟩).Unfolds (.ref .tuple ⟨1⟩) t ∧ (quotedPair ⟨1⟩).Unfolds (.ref .tuple ⟨1⟩) t' ∧
        t.Plain ∧ t'.Plain ∧ (quotedPair ⟨0⟩).text (.ref .tuple ⟨1⟩) = (quotedPair ⟨1⟩).text (.ref .tuple ⟨1⟩) ∧
        t = t' := by
  have hplain : (Tree.tuple [.string "a\",\"b", .list [.type ⟨6⟩]]).Plain := by
    refine .tuple fun t ht => ?_
    simp only [List.mem_cons, List.not_mem_nil, or_false] at ht
    rcases ht with rfl | rfl
    · exact .string _
    · refine .list fun t ht => ?_
      rw [List.mem_singleton] at ht
      exact ht ▸ .type _
  have htext : (quotedPair ⟨0⟩).text (.ref .tuple ⟨1⟩) = (quotedPair ⟨1⟩).text (.ref .tuple ⟨1⟩) := by decide +kernel
  have hunfolds := quotedPair_unfolds (h := ⟨0⟩) rfl
  have hunfolds' := quotedPair_unfolds (h := ⟨1⟩) rfl
  exact ⟨by decide +kernel, _, _, hunfolds, hunfolds', hplain, hplain, htext,
    displayed_data_unambiguous hunfolds hunfolds' hplain hplain htext⟩

/-- A number without a fractional part is not told from an integer. -/
example : Value.text (.float 0x401C000000000000) = Value.text (.integer 7) := by decide +kernel

end RefMachine
