import RefMachine.Proofs.Machine.Perform
import RefMachine.Proofs.Tree.Machine

/-!
# When a machine of trees mirrors a machine

A machine of trees mirrors a machine when every value on the stack and in the scope unfolds to the tree in its place and
the rest is equal, diagnostics up to the slots that they quote (`Machine.Mirrors`). An acyclic machine that accounts for
its references has such a mirror (`Accounts.exists_mirrors`).

In a machine and its mirror an instruction resolves to corresponding changes, or is rejected for the same reason
(`Mirrors.resolve_matches`). There is one exception: an operand that is a string is quoted by its slot, and a new
expression could go on to use that as the number of a literal.
-/

namespace RefMachine

/-! ## Erasing slots -/

theorem Heap.Unfolds.erase_eq {heap : Heap} {v : Value} {x : Tree} (hv : heap.Unfolds v x) : v.erase = x.toOperand := by
  cases hv with
  | atom htree => cases v <;> cases htree <;> rfl
  | string | tuple | nil | cell | expression => rfl

theorem Instruction.fits_erase (op : Opcode) (v : Value) :
    (⟨op, v.erase⟩ : Instruction).fits = (⟨op, v⟩ : Instruction).fits := by
  cases v with
  | error | boolean | integer | float | type | opcode => rfl
  | ref k h =>
    cases op with
    | loadString => cases k <;> rfl
    | _ => cases k <;> rfl

theorem Instruction.erase_of_fits {op : Opcode} {v : Value} (hfits : (⟨op, v⟩ : Instruction).fits = true)
    (hop : op ≠ .loadString) : v.erase = v := by
  cases v with
  | error | boolean | integer | float | type | opcode => rfl
  | ref k h => cases op <;> cases k <;> first | exact absurd rfl hop | exact nomatch hfits

/-! ## Checks that agree -/

/-- Two checks pass with related answers, or fail alike. -/
def Matches {α β : Type} (good : α → β → Prop) : Check α → Check β → Prop
  | .ok a, .ok b => good a b
  | .error halt, .error halt' => halt' = halt.erase
  | _, _ => False

namespace Matches

variable {α β γ δ : Type} {good : α → β → Prop} {x : Check α} {y : Check β}

theorem bind {next : γ → δ → Prop} {f : α → Check γ} {g : β → Check δ} (h : Matches good x y)
    (hnext : ∀ a b, good a b → Matches next (f a) (g b)) : Matches next (x >>= f) (y >>= g) := by
  cases x with
  | ok a =>
    cases y with
    | ok b => exact hnext a b h
    | error halt' => exact h.elim
  | error halt =>
    cases y with
    | ok b => exact h.elim
    | error halt' => exact h

theorem and_eq (h : Matches good x y) : Matches (fun a b => x = .ok a ∧ good a b) x y := by
  cases x with
  | ok a =>
    cases y with
    | ok b => exact ⟨rfl, h⟩
    | error halt' => exact h
  | error halt =>
    cases y with
    | ok b => exact h
    | error halt' => exact h

theorem mapM {rel : α → β → Prop} {good : γ → δ → Prop} {f : α → Check γ} {g : β → Check δ}
    {xs : List α} {ys : List β} (hxs : List.Forall₂ rel xs ys) (hf : ∀ a b, rel a b → Matches good (f a) (g b)) :
    Matches (List.Forall₂ good) (xs.mapM f) (ys.mapM g) := by
  induction hxs with
  | nil => exact List.Forall₂.nil
  | cons hxy _ ih =>
    rw [List.mapM_cons, List.mapM_cons]
    refine bind (hf _ _ hxy) fun c d hcd => ?_
    refine bind ih fun cs ds hcds => ?_
    exact List.Forall₂.cons hcd hcds

end Matches

theorem forall₂_zipIdx {α β : Type} {rel : α → β → Prop} {xs : List α} {ys : List β} (hxs : List.Forall₂ rel xs ys)
    (n : Nat) : List.Forall₂ (fun p q => rel p.1 q.1 ∧ q.2 = p.2) (xs.zipIdx n) (ys.zipIdx n) := by
  induction hxs generalizing n with
  | nil => exact .nil
  | cons hxy _ ih =>
    rw [List.zipIdx_cons, List.zipIdx_cons]
    exact .cons ⟨hxy, rfl⟩ (ih (n + 1))

theorem forall₂_getElem? {α β : Type} {rel : α → β → Prop} {xs : List α} {ys : List β} (hxs : List.Forall₂ rel xs ys)
    (i : Nat) : Option.Rel rel xs[i]? ys[i]? := by
  induction hxs generalizing i with
  | nil => exact .none
  | cons hxy _ ih =>
    cases i with
    | zero => exact .some hxy
    | succ i => exact ih i

theorem eq_of_forall₂ {α : Type} {p : α → Prop} {xs ys : List α} (hxs : List.Forall₂ (fun x y => p x → y = x) xs ys)
    (hp : ∀ x ∈ xs, p x) : ys = xs := by
  induction hxs with
  | nil => rfl
  | @cons x y xs ys hxy _ ih =>
    rw [hxy (hp x List.mem_cons_self), ih fun z hz => hp z (List.mem_cons_of_mem x hz)]

section Trees

variable {heap : Heap} {v : Value} {x : Tree} {op : Opcode}

theorem typeTag_matches (hv : heap.Unfolds v x) : Matches (fun a b => b = a) (Check.typeTag op v) (x.typeTag op) := by
  cases hv with
  | atom htree => cases v <;> cases htree <;> exact rfl
  | string | tuple | nil | cell | expression => exact rfl

theorem object_of_get? {k : Kind} {h : Handle} {content : k.Content} (hget : heap.get? k h = some content) :
    Check.object heap k h = .ok content := by
  simp only [Check.object, Heap.fetch, hget]

theorem items_matches (hv : heap.Unfolds v x) :
    Matches (List.Forall₂ heap.Unfolds) (Check.objectOf heap op .tuple v) (x.items op) := by
  cases hv with
  | atom htree => cases v <;> cases htree <;> exact rfl
  | string | nil | cell | expression => exact rfl
  | tuple hget hlength hitems =>
    change Matches _ (Check.object heap .tuple _) _
    rw [object_of_get? hget]
    exact List.forall₂_iff_get.mpr ⟨hlength, hitems⟩

theorem elements_matches (hv : heap.Unfolds v x) :
    Matches (fun h xs => v = .ref .list h ∧ x = .list xs) (Check.handle op .list v) (x.elements op) := by
  cases hv with
  | atom htree => cases v <;> cases htree <;> exact rfl
  | string | tuple | expression => exact rfl
  | nil | cell => exact ⟨rfl, rfl⟩

theorem quoted_matches (hv : heap.Unfolds v x) :
    Matches (fun h e => heap.get? .expression h = some e) (Check.handle op .expression v) (x.quoted op) := by
  cases hv with
  | atom htree => cases v <;> cases htree <;> exact rfl
  | string | tuple | nil | cell => exact rfl
  | expression hget => exact hget

theorem cell_matches (hv : heap.Unfolds v x) :
    Matches (fun c p => heap.Unfolds c.head p.1 ∧ heap.Unfolds (.ref .list c.tail) (.list p.2))
      (Check.cellOf heap op v) (x.cell op) := by
  unfold Check.cellOf Tree.cell
  refine (elements_matches hv).bind fun h xs hlist => ?_
  obtain ⟨rfl, rfl⟩ := hlist
  cases hv with
  | atom htree => exact nomatch htree
  | nil => exact rfl
  | cell hsentinel hget hhead htail =>
    rw [hsentinel, if_neg Bool.false_ne_true, object_of_get? hget]
    exact ⟨hhead, htail⟩

theorem instruction_matches (hv : heap.Unfolds v x) (target : Opcode) :
    Matches (fun i j => i.opcode ≠ .loadString → j = i) (Check.instruction target v)
      (Check.instruction target x.toOperand) := by
  rw [← hv.erase_eq]
  unfold Check.instruction
  dsimp only
  by_cases hwidth : target.width = 0
  · rw [if_pos hwidth, if_pos hwidth]
    split_ifs
    · exact fun _ => rfl
    · exact rfl
  · rw [if_neg hwidth, if_neg hwidth, Instruction.fits_erase]
    split_ifs with hfits
    · intro hop
      rw [Instruction.erase_of_fits hfits hop]
    · exact rfl

theorem reflect_matches (hv : heap.Unfolds v x) (index : Nat) :
    Matches (fun i j => i.opcode ≠ .loadString → j = i) (Check.reflect heap op index v) (x.reflect op index) := by
  unfold Check.reflect Tree.reflect
  refine (items_matches hv).bind fun items trees hitems => ?_
  split
  · rename_i target operand
    obtain ⟨x₁, _, h₁, hrest, rfl⟩ := List.forall₂_cons_left_iff.mp hitems
    obtain ⟨x₂, _, h₂, hnil, rfl⟩ := List.forall₂_cons_left_iff.mp hrest
    cases List.forall₂_nil_left_iff.mp hnil
    cases h₁ with
    | atom htree =>
      cases htree
      exact instruction_matches h₂ target
  · rename_i hother
    split
    · rename_i target operand
      obtain ⟨v₁, _, h₁, hrest, rfl⟩ := List.forall₂_cons_right_iff.mp hitems
      obtain ⟨v₂, _, h₂, hnil, rfl⟩ := List.forall₂_cons_right_iff.mp hrest
      cases List.forall₂_nil_right_iff.mp hnil
      cases h₁ with
      | atom htree =>
        cases v₁ <;> cases htree
        exact absurd rfl (hother target v₂)
    · exact rfl

end Trees

/-! ## Mirrors -/

namespace Machine

variable {m m' : Machine} {t t' : TreeMachine} {ledger : Ledger} {host : Multiset Value} {op : Opcode} {v : Value}
  {x : Tree} {n : Nat}

/-- The machine of trees holds what the machine holds, unfolded. -/
structure Mirrors (m : Machine) (t : TreeMachine) : Prop where
  stack : List.Forall₂ m.heap.Unfolds m.stack t.stack
  size_eq : t.scope.length = m.scope.size
  binding : ∀ i, Option.Rel (fun b y => m.heap.Unfolds b.value y.value ∧ y.mutability = b.mutability)
    (m.scope.binding? i) (t.binding? i)
  diagnostics_eq : t.diagnostics = m.diagnostics.map Diagnostic.erase
  literals_eq : t.literals = m.literals
  base_eq : t.base = m.base
  depth_eq : t.depth = m.depth
  limits_eq : t.limits = m.limits

/-- A machine with an acyclic heap, whose references are accounted for, has a mirror. -/
theorem Accounts.exists_mirrors (ha : m.Accounts ledger host) (hacyclic : m.heap.Acyclic) : ∃ t, m.Mirrors t := by
  have hunfolds : ∀ w ∈ m.roots host, ∃ y, m.heap.Unfolds w y := by
    intro w hw
    exact hacyclic.exists_unfolds ha.wellFormed (fun u hu => ha.live_of_reachable hu) (.of_mem hw)
  have hbindings : ∀ slot ∈ m.scope.slots.toList, ∃ y : Option TreeBinding,
      Option.Rel (fun b y => m.heap.Unfolds b.value y.value ∧ y.mutability = b.mutability) slot.binding y := by
    intro slot hslot
    cases hb : slot.binding with
    | none => exact ⟨none, .none⟩
    | some b =>
      have hmem : b.value ∈ m.scope.values := List.mem_filterMap.mpr ⟨slot, hslot, by rw [hb, Option.map_some]⟩
      obtain ⟨y, hy⟩ := hunfolds b.value (mem_roots.mpr (.inr (.inl hmem)))
      exact ⟨some ⟨y, b.mutability⟩, .some ⟨hy, rfl⟩⟩
  obtain ⟨stack, hstack⟩ := Heap.exists_forall₂ fun w hw => hunfolds w (mem_roots.mpr (.inl hw))
  obtain ⟨scope, hscope⟩ := Heap.exists_forall₂ hbindings
  refine ⟨⟨scope, m.diagnostics.map Diagnostic.erase, m.literals, stack, m.base, m.depth, m.limits⟩, hstack,
    hscope.length_eq.symm, fun i => ?_, rfl, rfl, rfl, rfl, rfl⟩
  rw [Scope.binding?, TreeMachine.binding?, ← Array.getElem?_toList]
  have hslot := forall₂_getElem? hscope i
  revert hslot
  cases m.scope.slots.toList[i]? <;> cases scope[i]? <;> intro hslot
  · exact .none
  · cases hslot
  · cases hslot
  · cases hslot with
    | some hrel => exact hrel

namespace Mirrors

theorem functional (hm : m.Mirrors t) (hm' : m.Mirrors t') : t = t' := by
  have hunique : Relator.RightUnique m.heap.Unfolds := fun _ _ _ hx hy => hx.functional hy
  have hstack : t.stack = t'.stack := List.right_unique_forall₂' hunique hm.stack hm'.stack
  have hlength : t.scope.length = t'.scope.length := hm.size_eq.trans hm'.size_eq.symm
  have hbinding : ∀ i, t.binding? i = t'.binding? i := by
    intro i
    have hrel := hm.binding i
    have hrel' := hm'.binding i
    generalize m.scope.binding? i = old, t.binding? i = new, t'.binding? i = new' at hrel hrel' ⊢
    cases hrel with
    | none =>
      cases hrel' with
      | none => rfl
    | @some b y hy =>
      cases hrel' with
      | @some _ y' hy' =>
        obtain ⟨value, mutability⟩ := y
        obtain ⟨value', mutability'⟩ := y'
        obtain ⟨hvalue, rfl⟩ := hy
        obtain ⟨hvalue', rfl⟩ := hy'
        have heq : value = value' := hvalue.functional hvalue'
        rw [heq]
  have hscope : t.scope = t'.scope := by
    refine List.ext_getElem hlength fun i hi hi' => ?_
    have heq := hbinding i
    rw [TreeMachine.binding?, TreeMachine.binding?, List.getElem?_eq_getElem hi, List.getElem?_eq_getElem hi'] at heq
    exact heq
  obtain ⟨scope, diagnostics, literals, stack, base, depth, limits⟩ := t
  obtain ⟨scope', diagnostics', literals', stack', base', depth', limits'⟩ := t'
  obtain ⟨-, -, -, rfl, rfl, rfl, rfl, rfl⟩ := hm
  obtain ⟨-, -, -, rfl, rfl, rfl, rfl, rfl⟩ := hm'
  cases hstack
  cases hscope
  rfl

theorem frame (hm : m.Mirrors t) : List.Forall₂ m.heap.Unfolds m.frame t.frame := by
  rw [Machine.frame, TreeMachine.frame, hm.base_eq, ← hm.stack.length_eq]
  exact List.forall₂_take _ hm.stack

theorem push (hm : m.Mirrors t) (hv : m.heap.Unfolds v x) : { m with stack := v :: m.stack }.Mirrors (t.pushed x) :=
  ⟨.cons hv hm.stack, hm.size_eq, hm.binding, hm.diagnostics_eq, hm.literals_eq, hm.base_eq, hm.depth_eq, hm.limits_eq⟩

theorem report (hm : m.Mirrors t) (d : Diagnostic) :
    { m with diagnostics := m.diagnostics ++ [d] }.Mirrors (t.reported d.erase) := by
  refine ⟨hm.stack, hm.size_eq, hm.binding, ?_, hm.literals_eq, hm.base_eq, hm.depth_eq, hm.limits_eq⟩
  rw [List.map_append, ← hm.diagnostics_eq]
  rfl

theorem of_keeps {heap' : Heap} (hm : m.Mirrors t) (hw : m.heap.WellFormed)
    (hkeeps : m.heap.Keeps heap' { w | w ∈ (m.dropped n).roots host }) :
    { m.dropped n with heap := heap' }.Mirrors (t.dropped n) := by
  refine ⟨?_, hm.size_eq, ?_, hm.diagnostics_eq, hm.literals_eq, hm.base_eq, hm.depth_eq, hm.limits_eq⟩
  · refine Heap.Unfolds.forall₂_of_keeps (List.forall₂_drop n hm.stack) hw hkeeps fun w hmem => ?_
    exact .of_mem (mem_roots.mpr (.inl hmem))
  · intro i
    have hbinding := hm.binding i
    have hheld : ∀ b, m.scope.binding? i = some b → m.heap.Reachable { w | w ∈ (m.dropped n).roots host } b.value :=
      fun b hb => .of_mem (mem_roots.mpr (.inr (.inl (Scope.value_mem_values hb))))
    change Option.Rel _ (m.scope.binding? i) (t.binding? i)
    generalize m.scope.binding? i = old, t.binding? i = new at hbinding hheld ⊢
    cases hbinding with
    | none => exact .none
    | some hrel => exact .some ⟨hrel.1.of_keeps hw hkeeps (hheld _ rfl), hrel.2⟩

/-! ### Resolving instructions -/

theorem top_matches (hm : m.Mirrors t) : Matches m.heap.Unfolds (m.top op) (t.top op) := by
  have hframe := hm.frame
  unfold top TreeMachine.top
  generalize m.frame = vs, t.frame = xs at hframe ⊢
  cases hframe with
  | nil => exact rfl
  | cons hv _ => exact hv

theorem topTwo_matches (hm : m.Mirrors t) :
    Matches (fun p q => m.heap.Unfolds p.1 q.1 ∧ m.heap.Unfolds p.2 q.2) (m.topTwo op) (t.topTwo op) := by
  have hframe := hm.frame
  unfold topTwo TreeMachine.topTwo
  generalize m.frame = vs, t.frame = xs at hframe ⊢
  cases hframe with
  | nil => exact rfl
  | cons hv hrest =>
    cases hrest with
    | nil => exact rfl
    | cons hw _ => exact ⟨hv, hw⟩

theorem topAndBelow_matches (hm : m.Mirrors t) (count : Nat) :
    Matches (fun p q => m.heap.Unfolds p.1 q.1 ∧ List.Forall₂ m.heap.Unfolds p.2 q.2) (m.topAndBelow op count)
      (t.topAndBelow op count) := by
  have hframe := hm.frame
  unfold topAndBelow TreeMachine.topAndBelow
  generalize m.frame = vs, t.frame = xs at hframe ⊢
  cases hframe with
  | nil => exact rfl
  | cons hv hrest =>
    dsimp only
    rw [hrest.length_eq]
    split_ifs
    · exact rfl
    · exact ⟨hv, List.forall₂_take count hrest⟩

theorem typePair_matches (hm : m.Mirrors t) : Matches (fun p q => q = p) (m.typePair op) (t.typePair op) := by
  unfold typePair TreeMachine.typePair
  refine hm.topTwo_matches.bind ?_
  rintro ⟨upper, lower⟩ ⟨upper', lower'⟩ htop
  refine (typeTag_matches htop.1).bind fun right right' hright => ?_
  refine (typeTag_matches htop.2).bind fun left left' hleft => ?_
  subst hright hleft
  exact rfl

theorem quotation_matches (hm : m.Mirrors t) (count : Nat) :
    Matches (fun e e' => (∀ i ∈ e.code, i.opcode ≠ .loadString) → e' = e) (m.quotation op count)
      (t.quotation op count) := by
  unfold quotation TreeMachine.quotation
  refine (hm.topAndBelow_matches count).bind ?_
  rintro ⟨top, pairs⟩ ⟨top', pairs'⟩ htop
  refine (typeTag_matches htop.1).bind fun tag tag' htag => ?_
  have hcode : Matches (List.Forall₂ fun (i j : Instruction) => i.opcode ≠ .loadString → j = i)
      (pairs.zipIdx.mapM fun pair => Check.reflect m.heap op pair.2 pair.1)
      (pairs'.zipIdx.mapM fun pair => pair.1.reflect op pair.2) := by
    refine Matches.mapM (forall₂_zipIdx htop.2 0) fun pair pair' hpair => ?_
    rw [hpair.2]
    exact reflect_matches hpair.1 _
  refine hcode.bind fun code code' hforall => ?_
  subst htag
  intro hloads
  rw [eq_of_forall₂ hforall hloads]

theorem nestedExpression_matches (hm : m.Mirrors t) (hv : m.heap.Unfolds v x) :
    Matches (fun e e' => e' = e) (m.nestedExpression op v) (t.nestedExpression op x) := by
  unfold nestedExpression TreeMachine.nestedExpression
  refine (quoted_matches hv).bind fun h e hget => ?_
  rw [hm.depth_eq, hm.limits_eq]
  split_ifs
  · exact rfl
  · rw [object_of_get? hget]
    exact rfl

theorem variableValue_matches (hm : m.Mirrors t) (index : Nat) :
    Matches m.heap.Unfolds (m.variableValue index) (t.variableValue index) := by
  have hbinding := hm.binding index
  unfold variableValue Scope.value TreeMachine.variableValue
  rw [hm.size_eq]
  rcases m.scope.lookup_cases index with ⟨hlt, hlookup⟩ | ⟨hsize, hlookup⟩
  · rw [hlookup, if_pos hlt]
    generalize m.scope.binding? index = old, t.binding? index = new at hbinding ⊢
    cases hbinding with
    | none => exact rfl
    | some hrel =>
      dsimp only
      rw [hrel.1.isError_eq]
      split_ifs
      · exact rfl
      · exact hrel.1
  · rw [hlookup, if_neg (Nat.not_lt_of_le hsize)]
    exact rfl

end Mirrors

/-- The action and the move make corresponding changes. -/
inductive Corresponds (m : Machine) : Action → Move → Prop where
  | skip : Corresponds m .skip .skip
  | put {action : Action} {x : Tree} (hpushing : action.Pushing) (hmeans : m.Means action x) :
    Corresponds m action (.put action.arity x)
  | evaluate (handle : Value) (e : Expression) : Corresponds m (.evaluate handle e) (.evaluate e)
  | assign {v : Value} {x : Tree} (hv : m.heap.Unfolds v x) (index : Nat) (mutability : Mutability) :
    Corresponds m (.assign v index mutability) (.assign x index mutability)

/-- The instruction makes no expression that loads literals. -/
def QuotesNoLiteral (m : Machine) (i : Instruction) : Prop :=
  ∀ e, m.resolve i = .ok (.quote e) → ∀ j ∈ e.code, j.opcode ≠ .loadString

theorem unfolds_of_push {i : Instruction} (hi : i.operation? = some (.push v)) (heap : Heap) :
    heap.Unfolds v (.constant v) := by
  rcases constant_of_push hi with rfl | hnone
  · exact .nil
  · cases v with
    | error | boolean | integer | float | type | opcode => exact .atom rfl
    | ref => exact nomatch hnone

/-- A machine and its mirror resolve an instruction to corresponding changes, or reject it alike. -/
theorem Mirrors.resolve_matches {i : Instruction} (hm : m.Mirrors t) (hapart : m.HashesApart)
    (hquotes : m.QuotesNoLiteral i) : Matches m.Corresponds (m.resolve i) (t.resolve i) := by
  unfold QuotesNoLiteral at hquotes
  unfold resolve TreeMachine.resolve at *
  cases hop : i.operation? with
  | none => exact rfl
  | some operation =>
    rw [hop] at hquotes
    cases operation with
    | nop => exact .skip
    | push v => exact .put trivial (.push (unfolds_of_push hop m.heap))
    | pushLiteral id =>
      simp only [resolveOperation, TreeMachine.resolveOperation, hm.literals_eq]
      cases m.literals.text? id with
      | none => exact rfl
      | some text => exact .put trivial (.intern text hapart)
    | getType =>
      refine hm.top_matches.bind fun v x hv => ?_
      rw [← hv.ty_eq]
      exact .put trivial (.replace (.atom rfl))
    | typeIs =>
      refine hm.typePair_matches.bind fun types types' htypes => ?_
      subst htypes
      exact .put trivial (.compare _)
    | typeEquals =>
      refine hm.typePair_matches.bind fun types types' htypes => ?_
      subst htypes
      exact .put trivial (.compare _)
    | tupleArity =>
      refine hm.top_matches.bind fun v x hv => ?_
      refine (items_matches hv).bind fun items trees hitems => ?_
      rw [← hitems.length_eq]
      exact .put trivial (.replace (.atom rfl))
    | tupleItem index =>
      refine hm.top_matches.bind fun v x hv => ?_
      refine (items_matches hv).bind fun items trees hitems => ?_
      have hitem := forall₂_getElem? hitems index
      rw [← hitems.length_eq]
      generalize items[index]? = item, trees[index]? = tree at hitem ⊢
      cases hitem with
      | none => exact rfl
      | some hrel => exact .put trivial (.replace hrel)
    | newTuple arity =>
      simp only [resolveOperation, TreeMachine.resolveOperation, ← hm.frame.length_eq]
      split_ifs
      · exact rfl
      · exact .put trivial (.pack (List.forall₂_take arity hm.stack))
    | newExpression count =>
      -- Which instructions were put together is known only once the checks have passed.
      refine (hm.quotation_matches count).and_eq.bind fun e e' he => ?_
      have hloads : ∀ j ∈ e.code, j.opcode ≠ .loadString := by
        refine hquotes e ?_
        simp only [resolveOperation, he.1]
        rfl
      rw [he.2 hloads]
      exact .put trivial (.quote e)
    | evaluateExpression =>
      refine hm.top_matches.bind fun v x hv => ?_
      refine (hm.nestedExpression_matches hv).bind fun e e' he => ?_
      subst he
      exact .evaluate v e'
    | listAdd =>
      refine hm.topTwo_matches.bind ?_
      rintro ⟨head, list⟩ ⟨head', list'⟩ htop
      refine (elements_matches htop.2).bind fun tail trees hlist => ?_
      obtain ⟨rfl, rfl⟩ := hlist
      exact .put trivial (.cons htop.1 htop.2)
    | listHead =>
      refine hm.top_matches.bind fun v x hv => ?_
      refine (cell_matches hv).bind ?_
      rintro cell ⟨head, tail⟩ hcell
      exact .put trivial (.replace hcell.1)
    | listTail =>
      refine hm.top_matches.bind fun v x hv => ?_
      refine (cell_matches hv).bind ?_
      rintro cell ⟨head, tail⟩ hcell
      exact .put trivial (.replace hcell.2)
    | assign index mutability =>
      refine hm.top_matches.bind fun v x hv => ?_
      exact .assign hv index mutability
    | read index =>
      refine (hm.variableValue_matches index).bind fun v x hv => ?_
      exact .put trivial (.push hv)

end Machine

end RefMachine
