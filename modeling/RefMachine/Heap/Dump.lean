import RefMachine.Heap.Basic

/-!
# The heap as text

In the text of a value strings are quoted, tuples stand in parentheses, lists in brackets, and an expression is written
out. A handle to no object is written as kind and slot. A dump shows every slot of every store, in order: its count, its
content as text, and whether it is free.
-/

namespace RefMachine

/-- The text between quotes, with every quote in it doubled. -/
def quoted (text : String) : String :=
  "\"" ++ String.ofList (text.toList.flatMap fun c => if c = '"' then ['"', '"'] else [c]) ++ "\""

namespace Heap

/-- Follows a list for at most `steps` cells: the heads after those in `done`, which holds the latest first, and the
handle at which the walk ended. -/
def walk (heap : Heap) : (steps : Nat) → (done : List Value) → Handle → List Value × Handle
  | 0, done, h => (done.reverse, h)
  | steps + 1, done, h =>
    if h.isSentinel then
      (done.reverse, h)
    else
      match heap.lists.get? h with
      | some cell => heap.walk steps (cell.head :: done) cell.tail
      | none => (done.reverse, h)

/-- The items of a list, and the handle after the last of them: the empty list, unless a tail was released. A list that
does not come back to itself has fewer cells than there are slots. -/
def listItems (heap : Heap) (h : Handle) : List Value × Handle :=
  heap.walk heap.lists.slots.size [] h

/-- The text of a value whose objects are nested less than `depth` deep. -/
def textWithin (heap : Heap) : (depth : Nat) → Value → String
  | 0, v => v.text
  | depth + 1, v =>
    match v with
    | .ref .string h => ((heap.strings.get? h).map quoted).getD v.text
    | .ref .tuple h =>
      match heap.tuples.get? h with
      | some items => "(" ++ ",".intercalate (items.map (heap.textWithin depth)) ++ ")"
      | none => v.text
    | .ref .list h =>
      let (items, rest) := heap.listItems h
      let stop := if rest.isSentinel then "" else Value.text (.ref .list rest)
      "[" ++ ",".intercalate (items.map (heap.textWithin depth)) ++ stop ++ "]"
    | .ref .expression h => ((heap.expressions.get? h).map Expression.text).getD v.text
    | _ => v.text

/-- The text of a value. Objects that do not contain themselves are nested no deeper than there are tuples and lists. -/
def text (heap : Heap) (v : Value) : String :=
  heap.textWithin (heap.tuples.slots.size + heap.lists.slots.size + 1) v

end Heap

/-! ## Dumps -/

structure SlotDump where
  count : Nat
  /-- Missing for a free slot, an empty tuple and the empty list. -/
  content : Option String
  free : Bool

structure DumpSection where
  kind : Kind
  slots : List SlotDump

namespace Heap

/-- The content of a slot as a dump shows it. -/
def slotText (heap : Heap) : (k : Kind) → Handle → k.Content → Option String
  | .string, _, text => some text
  | .tuple, h, items => if items.isEmpty then none else some (heap.text (.ref .tuple h))
  | .list, h, _ => if h.isSentinel then none else some (heap.text (.ref .list h))
  | .expression, _, e => some e.shortText

def dumpSection (heap : Heap) (k : Kind) : DumpSection where
  kind := k
  slots := (heap.store k).slots.toList.mapIdx fun i slot =>
    { count := slot.count
      content := slot.content.bind (heap.slotText k ⟨i.toUInt32⟩)
      free := slot.content.isNone }

def dump (heap : Heap) : List DumpSection :=
  Kind.all.map heap.dumpSection

end Heap

def SlotDump.text (slot : SlotDump) : String :=
  "(" ++ toString slot.count ++ "," ++ slot.content.getD "|Empty|" ++ "," ++ (if slot.free then "true" else "false") ++
    ")"

def DumpSection.text (part : DumpSection) : String :=
  part.kind.name ++ "s[" ++ ", ".intercalate (part.slots.map SlotDump.text) ++ "]"

/-- A dump with one line for each store. -/
def Heap.dumpText (heap : Heap) : String :=
  "\n".intercalate (heap.dump.map DumpSection.text)

end RefMachine
