import RefMachine.Proofs.Machine.Roots

/-!
# What resolving an instruction guarantees

If the references of a machine are accounted for, an instruction resolves to an action that the machine warrants: the
values that the action takes are on top of the frame, those that it pushes are there, and what it was said to hold is
what they hold. Where it does not resolve, the program is wrong, or it names a literal or a variable that there is not;
no handle is ever found to be dangling.
-/

namespace RefMachine

/-- How many values an action takes from the stack. -/
def Action.arity : Action → Nat
  | .skip | .push _ | .intern _ => 0
  | .replace _ _ | .evaluate _ _ | .assign _ _ _ => 1
  | .compare _ | .cons _ _ => 2
  | .pack arity => arity
  | .quote e => e.code.length + 1

namespace Machine

variable {m : Machine} {ledger : Ledger} {host : Multiset Value} {floor : List Value} {op : Opcode} {v : Value}

/-- The faults that a program can cause: a literal or a variable that there is not, and a heap at its end. -/
def Admits (m : Machine) : Fault → Prop
  | .stackUnderflow _ => False
  | .unknownLiteral id => m.literals.text? id = none
  | .variableOutOfRange index size => size = m.scope.size ∧ size ≤ index
  | .heap e => e.Exhausted

/-- What an action relies on besides the number of values that it takes. -/
def Supports (m : Machine) : Action → Prop
  | .skip => True
  | .push v => m.heap.Live v
  | .intern text => text ∈ m.texts
  | .replace old new => m.stack.head? = some old ∧ (new ∈ m.heap.children old ∨ ¬ new.Counted)
  | .compare _ => ∀ v ∈ m.stack.take 2, ¬ v.Counted
  | .pack _ => True
  | .quote _ => ∀ v ∈ m.stack.take 1, ¬ v.Counted
  | .evaluate handle e =>
    m.stack.head? = some handle ∧ m.depth < m.limits.maxDepth ∧
      ∃ h, handle = .ref .expression h ∧ m.heap.get? .expression h = some e
  | .cons head tail => m.stack.take 2 = [head, .ref .list tail]
  | .assign v _ _ => m.stack.head? = some v

/-- The action takes values of the frame only, and finds what it relies on. -/
structure Warrants (m : Machine) (action : Action) : Prop where
  arity_le : action.arity ≤ m.frame.length
  supports : m.Supports action

/-- Why an instruction may fail to resolve. -/
def Rejects (m : Machine) : Halt → Prop
  | .diagnostic _ => True
  | .reported => False
  | .fault f => m.Admits f

/-! ## The frame -/

theorem frame_append_drop (m : Machine) : m.frame ++ m.stack.drop m.frame.length = m.stack := by
  have hlength : m.frame.length = m.stack.length - m.base := by
    rw [frame, List.length_take]
    omega
  rw [hlength, frame, List.take_append_drop]

theorem suffix_drop {n : Nat} (hbase : m.base = floor.length) (hfloor : floor <:+ m.stack) (hn : n ≤ m.frame.length) :
    floor <:+ m.stack.drop n := by
  obtain ⟨above, hstack⟩ := hfloor
  have hlength : m.frame.length = above.length := by
    rw [frame, List.length_take, hbase, ← hstack, List.length_append]
    omega
  rw [← hstack, List.drop_append_of_le_length (hlength ▸ hn)]
  exact List.suffix_append _ _

theorem top_passes (m : Machine) (op : Opcode) :
    Passes (fun v => m.stack.head? = some v ∧ 1 ≤ m.frame.length) m.Rejects (m.top op) := by
  have hstack := m.frame_append_drop
  unfold top
  split
  · rename_i v rest hframe
    rw [hframe, List.cons_append] at hstack
    rw [← hstack, hframe]
    exact ⟨rfl, Nat.succ_pos _⟩
  · trivial

theorem topTwo_passes (m : Machine) (op : Opcode) :
    Passes (fun p => m.stack.take 2 = [p.1, p.2] ∧ 2 ≤ m.frame.length) m.Rejects (m.topTwo op) := by
  have hstack := m.frame_append_drop
  unfold topTwo
  split
  · rename_i v w rest hframe
    rw [hframe, List.cons_append, List.cons_append] at hstack
    rw [← hstack, hframe]
    exact ⟨rfl, Nat.le_add_left 2 rest.length⟩
  · trivial

theorem topAndBelow_passes (m : Machine) (op : Opcode) (count : Nat) :
    Passes (fun p => m.stack.head? = some p.1 ∧ p.2.length = count ∧ count + 1 ≤ m.frame.length ∧ p.2 ⊆ m.stack) m.Rejects
      (m.topAndBelow op count) := by
  have hstack := m.frame_append_drop
  unfold topAndBelow
  split
  · rename_i v rest hframe
    rw [hframe] at hstack
    split_ifs with hcount
    · trivial
    · refine ⟨by rw [← hstack]; rfl, ?_, ?_, ?_⟩
      · rw [List.length_take]
        omega
      · rw [hframe, List.length_cons]
        omega
      · intro w hw
        rw [← hstack]
        exact List.mem_append_left _ (List.mem_cons_of_mem v (List.mem_of_mem_take hw))
  · trivial

/-! ## The checks -/

theorem handle_passes (op : Opcode) (k : Kind) (v : Value) :
    Passes (fun h => v = .ref k h) m.Rejects (Check.handle op k v) := by
  unfold Check.handle Value.handleOf?
  cases v with
  | error | boolean | integer | float | type | opcode => trivial
  | ref k' h =>
    by_cases hk : k' = k
    · simp only [hk, if_true]
      exact rfl
    · simp only [hk, if_false]
      trivial

theorem typeTag_passes (op : Opcode) (v : Value) :
    Passes (fun tag => v = .type tag) m.Rejects (Check.typeTag op v) := by
  cases v with
  | type tag => exact rfl
  | error | boolean | integer | float | opcode | ref => trivial

theorem object_passes {k : Kind} {h : Handle} (hlive : m.heap.Live (.ref k h)) :
    Passes (fun x => m.heap.get? k h = some x) m.Rejects (Check.object m.heap k h) := by
  obtain ⟨x, hget⟩ := Option.isSome_iff_exists.mp hlive
  simp only [Check.object, Heap.fetch, hget]
  exact rfl

theorem objectOf_passes {k : Kind} (hlive : m.heap.Live v) :
    Passes (fun x => ∃ h, v = .ref k h ∧ m.heap.get? k h = some x) m.Rejects (Check.objectOf m.heap op k v) := by
  unfold Check.objectOf
  refine (handle_passes op k v).bind fun h hv => ?_
  subst hv
  exact (object_passes hlive).mono fun x hget => ⟨h, rfl, hget⟩

theorem cellOf_passes (hlive : m.heap.Live v) :
    Passes (fun cell => cell.head ∈ m.heap.children v ∧ .ref .list cell.tail ∈ m.heap.children v) m.Rejects
      (Check.cellOf m.heap op v) := by
  unfold Check.cellOf
  refine (handle_passes op .list v).bind fun h hv => ?_
  subst hv
  cases hsentinel : h.isSentinel with
  | true => trivial
  | false =>
    refine (object_passes hlive).mono fun cell hget => ?_
    rw [Heap.children_of_cell hsentinel hget]
    simp

theorem instruction_passes (op : Opcode) (operand : Value) :
    Passes (fun _ => True) m.Rejects (Check.instruction op operand) := by
  unfold Check.instruction
  dsimp only
  split_ifs <;> trivial

theorem reflect_passes {index : Nat} (hlive : m.heap.Live v) :
    Passes (fun _ => True) m.Rejects (Check.reflect m.heap op index v) := by
  unfold Check.reflect
  refine (objectOf_passes hlive).bind fun items _ => ?_
  split
  · exact instruction_passes _ _
  · trivial

theorem typePair_passes (m : Machine) (op : Opcode) :
    Passes (fun _ => (∀ v ∈ m.stack.take 2, ¬ v.Counted) ∧ 2 ≤ m.frame.length) m.Rejects (m.typePair op) := by
  unfold typePair
  refine (m.topTwo_passes op).bind ?_
  rintro ⟨upper, lower⟩ ⟨hstack, hlength⟩
  refine (typeTag_passes op upper).bind fun right hright => ?_
  refine (typeTag_passes op lower).bind fun left hleft => ?_
  refine ⟨fun v hv => ?_, hlength⟩
  rw [hstack] at hv
  simp only [List.mem_cons, List.not_mem_nil, or_false] at hv
  rcases hv with rfl | rfl
  · rw [hright]
    exact id
  · rw [hleft]
    exact id

theorem quotation_passes (hlive : ∀ w ∈ m.stack, m.heap.Live w) (count : Nat) :
    Passes (fun e => (∀ v ∈ m.stack.take 1, ¬ v.Counted) ∧ e.code.length + 1 ≤ m.frame.length) m.Rejects
      (m.quotation op count) := by
  unfold quotation
  refine (m.topAndBelow_passes op count).bind ?_
  rintro ⟨top, pairs⟩ ⟨hhead, hlength, hcount, hpairs⟩
  refine (typeTag_passes op top).bind fun tag htag => ?_
  have hcode : Passes (fun code => List.Forall₂ (fun _ _ => True) pairs.zipIdx code) m.Rejects
      (pairs.zipIdx.mapM fun pair => Check.reflect m.heap op pair.2 pair.1) := by
    refine Passes.mapM fun pair hmem => reflect_passes (hlive pair.1 (hpairs ?_))
    exact List.fst_mem_of_mem_zipIdx hmem
  refine hcode.bind fun code hforall => ⟨fun v hv => ?_, ?_⟩
  · rw [List.take_one, hhead, Option.toList_some, List.mem_singleton] at hv
    rw [hv, htag]
    exact id
  · have heq := hforall.length_eq
    rw [List.length_zipIdx] at heq
    simp only at hlength hcount
    change code.length + 1 ≤ _
    omega

theorem nestedExpression_passes (hlive : m.heap.Live v) :
    Passes (fun e => m.depth < m.limits.maxDepth ∧ ∃ h, v = .ref .expression h ∧ m.heap.get? .expression h = some e)
      m.Rejects (m.nestedExpression op v) := by
  unfold nestedExpression
  refine (handle_passes op .expression v).bind fun h hv => ?_
  subst hv
  split_ifs with hdepth
  · trivial
  · exact (object_passes hlive).mono fun e hget => ⟨Nat.lt_of_not_le hdepth, h, rfl, hget⟩

theorem variableValue_passes (m : Machine) (index : Nat) :
    Passes (fun v => v ∈ m.scope.values) m.Rejects (m.variableValue index) := by
  unfold variableValue Scope.value
  rcases m.scope.lookup_cases index with ⟨-, hlookup⟩ | ⟨hsize, hlookup⟩
  · rw [hlookup]
    cases hbinding : m.scope.binding? index with
    | none => trivial
    | some binding =>
      dsimp only
      split_ifs
      · trivial
      · exact Scope.value_mem_values hbinding
  · rw [hlookup]
    exact ⟨rfl, hsize⟩

/-! ## Instructions -/

theorem constant_of_push {i : Instruction} (hi : i.operation? = some (.push v)) :
    v = .emptyList ∨ v.handle? = none := by
  obtain ⟨opcode, operand⟩ := i
  cases opcode <;> simp only [Instruction.operation?, Instruction.bare?, Instruction.constant?, Option.map_eq_some_iff,
    Option.ite_none_right_eq_some, Option.some.injEq, Operation.push.injEq, reduceCtorEq, and_false, exists_false] at hi
  case listEmpty => exact .inl hi.2.symm
  all_goals
    obtain ⟨hty, rfl⟩ := hi
    cases operand <;> try exact .inr rfl
    rename_i k h
    cases k <;> exact nomatch hty

theorem not_counted_of_push {i : Instruction} (hi : i.operation? = some (.push v)) : ¬ v.Counted := by
  rcases constant_of_push hi with rfl | hnone
  · exact Value.not_counted_emptyList
  · cases v with
    | error | boolean | integer | float | type | opcode => exact id
    | ref => exact nomatch hnone

/-- Where the references are accounted for, an instruction resolves to a warranted action, or is rejected, with a fault
only if the machine admits it. -/
theorem resolve_passes (ha : m.Accounts ledger host) (i : Instruction) : Passes m.Warrants m.Rejects (m.resolve i) := by
  have hstack : ∀ w ∈ m.stack, m.heap.Live w := fun w hw => ha.live w (.inl (mem_roots.mpr (.inl hw)))
  have hhead : ∀ w, m.stack.head? = some w → m.heap.Live w := fun w hw => hstack w (List.mem_of_head? hw)
  unfold resolve
  cases hop : i.operation? with
  | none => trivial
  | some operation =>
    cases operation with
    | nop => exact ⟨Nat.zero_le _, trivial⟩
    | push v => exact ⟨Nat.zero_le _, Heap.live_of_not_counted ha.wellFormed (not_counted_of_push hop)⟩
    | pushLiteral id =>
      simp only [resolveOperation]
      cases htext : m.literals.text? id with
      | none => exact htext
      | some text => exact ⟨Nat.zero_le _, id, htext⟩
    | getType =>
      refine (m.top_passes i.opcode).bind fun v hv => ?_
      exact ⟨hv.2, hv.1, .inr fun hcounted => hcounted⟩
    | typeIs =>
      refine (m.typePair_passes i.opcode).bind fun types htypes => ?_
      exact ⟨htypes.2, htypes.1⟩
    | typeEquals =>
      refine (m.typePair_passes i.opcode).bind fun types htypes => ?_
      exact ⟨htypes.2, htypes.1⟩
    | tupleArity =>
      refine (m.top_passes i.opcode).bind fun v hv => ?_
      refine (objectOf_passes (k := .tuple) (hhead v hv.1)).bind fun items _ => ?_
      exact ⟨hv.2, hv.1, .inr fun hcounted => hcounted⟩
    | tupleItem index =>
      refine (m.top_passes i.opcode).bind fun v hv => ?_
      refine (objectOf_passes (k := .tuple) (hhead v hv.1)).bind fun items hitems => ?_
      obtain ⟨h, rfl, hget⟩ := hitems
      split
      · rename_i item hitem
        have hchild := Heap.mem_children_of_tuple ha.wellFormed hget (List.mem_of_getElem? hitem)
        exact ⟨hv.2, hv.1, .inl hchild⟩
      · trivial
    | newTuple arity =>
      simp only [resolveOperation]
      split_ifs with harity
      · trivial
      · exact ⟨Nat.le_of_not_lt harity, trivial⟩
    | newExpression count =>
      refine (quotation_passes hstack count).bind fun e he => ?_
      exact ⟨he.2, he.1⟩
    | evaluateExpression =>
      refine (m.top_passes i.opcode).bind fun v hv => ?_
      refine (nestedExpression_passes (hhead v hv.1)).bind fun e he => ?_
      exact ⟨hv.2, hv.1, he⟩
    | listAdd =>
      refine (m.topTwo_passes i.opcode).bind ?_
      rintro ⟨head, list⟩ htop
      refine (handle_passes i.opcode .list list).bind fun tail htail => ?_
      exact ⟨htop.2, by rw [Supports, htop.1, htail]⟩
    | listHead =>
      refine (m.top_passes i.opcode).bind fun v hv => ?_
      refine (cellOf_passes (hhead v hv.1)).bind fun cell hcell => ?_
      exact ⟨hv.2, hv.1, .inl hcell.1⟩
    | listTail =>
      refine (m.top_passes i.opcode).bind fun v hv => ?_
      refine (cellOf_passes (hhead v hv.1)).bind fun cell hcell => ?_
      exact ⟨hv.2, hv.1, .inl hcell.2⟩
    | assign index mutability =>
      refine (m.top_passes i.opcode).bind fun v hv => ?_
      exact ⟨hv.2, hv.1⟩
    | read index =>
      refine (m.variableValue_passes index).bind fun v hv => ?_
      exact ⟨Nat.zero_le _, ha.live v (.inl (mem_roots.mpr (.inr (.inl hv))))⟩

end Machine

end RefMachine
