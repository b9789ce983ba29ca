import RefMachine.Proofs.Heap.Reach
import Mathlib.Data.List.Forall2

/-!
# Values as trees

A tree is a value together with all that it refers to, and no handles. `Unfolds heap v t` says that `v` unfolds to the
tree `t` through a heap. A value unfolds to at most one tree (`Unfolds.functional`), in an acyclic heap every value whose
objects are all there unfolds to one (`Acyclic.exists_unfolds`), and two heaps that keep what a value reaches unfold it
to the same tree (`Unfolds.of_keeps`).
-/

namespace RefMachine

/-- A value without handles. An expression is taken as it is: its operands are no heap objects. -/
inductive Tree where
  | error
  | boolean (b : Bool)
  | integer (n : Int64)
  | float (bits : UInt64)
  | type (tag : TypeTag)
  | opcode (op : Opcode)
  | string (text : String)
  | tuple (items : List Tree)
  | list (items : List Tree)
  | expression (e : Expression)

namespace Tree

def ty : Tree → Ty
  | error => .error
  | boolean _ => .boolean
  | integer _ => .integer
  | float _ => .float
  | type _ => .type
  | opcode _ => .opcode
  | string _ => .string
  | tuple _ => .tuple
  | list _ => .list
  | expression _ => .expression

def isError : Tree → Bool
  | error => true
  | _ => false

end Tree

/-- The tree of a value that is no handle. -/
def Value.tree? : Value → Option Tree
  | error => some .error
  | boolean b => some (.boolean b)
  | integer n => some (.integer n)
  | float bits => some (.float bits)
  | type tag => some (.type tag)
  | opcode op => some (.opcode op)
  | ref _ _ => none

namespace Heap

/-- The value stands for the tree, which is found by following its handles. -/
inductive Unfolds (heap : Heap) : Value → Tree → Prop where
  | atom {v : Value} {t : Tree} (htree : v.tree? = some t) : Unfolds heap v t
  | string {h : Handle} {text : String} (hget : heap.get? .string h = some text) :
    Unfolds heap (.ref .string h) (.string text)
  | tuple {h : Handle} {items : List Value} {trees : List Tree} (hget : heap.get? .tuple h = some items)
    (hlength : items.length = trees.length)
    (hitems : ∀ i hi hi', Unfolds heap (items.get ⟨i, hi⟩) (trees.get ⟨i, hi'⟩)) :
    Unfolds heap (.ref .tuple h) (.tuple trees)
  | nil : Unfolds heap .emptyList (.list [])
  | cell {h tail : Handle} {head : Value} {tree : Tree} {trees : List Tree} (hsentinel : h.isSentinel = false)
    (hget : heap.get? .list h = some ⟨head, tail⟩) (hhead : Unfolds heap head tree)
    (htail : Unfolds heap (.ref .list tail) (.list trees)) : Unfolds heap (.ref .list h) (.list (tree :: trees))
  | expression {h : Handle} {e : Expression} (hget : heap.get? .expression h = some e) :
    Unfolds heap (.ref .expression h) (.expression e)

variable {heap heap' : Heap} {v : Value} {t t' : Tree} {held : Set Value}

namespace Unfolds

theorem ty_eq (hv : heap.Unfolds v t) : v.ty = t.ty := by
  cases hv with
  | atom htree => cases v <;> cases htree <;> rfl
  | string | tuple | nil | cell | expression => rfl

theorem isError_eq (hv : heap.Unfolds v t) : v.isError = t.isError := by
  cases hv with
  | atom htree => cases v <;> cases htree <;> rfl
  | string | tuple | nil | cell | expression => rfl

theorem list_of_ref {h : Handle} (hv : heap.Unfolds (.ref .list h) t) : ∃ trees, t = .list trees := by
  cases hv with
  | atom htree => exact nomatch htree
  | nil => exact ⟨_, rfl⟩
  | cell => exact ⟨_, rfl⟩

theorem tuple_of_forall₂ {h : Handle} {items : List Value} {trees : List Tree} (hget : heap.get? .tuple h = some items)
    (hitems : List.Forall₂ heap.Unfolds items trees) : heap.Unfolds (.ref .tuple h) (.tuple trees) := by
  obtain ⟨hlength, hget'⟩ := List.forall₂_iff_get.mp hitems
  exact .tuple hget hlength hget'

/-- A value unfolds to one tree only. -/
theorem functional (hv : heap.Unfolds v t) (hv' : heap.Unfolds v t') : t = t' := by
  induction hv generalizing t' with
  | @atom v t htree =>
    cases hv' with
    | atom htree' => exact Option.some.inj (htree.symm.trans htree')
    | string | tuple | nil | cell | expression => exact nomatch htree
  | string hget =>
    cases hv' with
    | atom htree => exact nomatch htree
    | string hget' => rw [Option.some.inj (hget.symm.trans hget')]
  | @tuple h items trees hget hlength _ ih =>
    cases hv' with
    | atom htree => exact nomatch htree
    | @tuple _ _ trees' hget' hlength' hitems' =>
      cases hget.symm.trans hget'
      refine congrArg Tree.tuple (List.ext_get (hlength.symm.trans hlength') fun i hi hi' => ?_)
      exact ih i (hlength ▸ hi) hi (hitems' i (hlength ▸ hi) hi')
  | nil =>
    cases hv' with
    | atom htree => exact nomatch htree
    | nil => rfl
    | cell hsentinel => exact absurd hsentinel (by decide)
  | @cell h tail head tree trees hsentinel hget _ _ ihhead ihtail =>
    cases hv' with
    | atom htree => exact nomatch htree
    | nil => exact absurd hsentinel (by decide)
    | cell _ hget' hhead' htail' =>
      cases hget.symm.trans hget'
      have hrest := ihtail htail'
      rw [ihhead hhead', Tree.list.inj hrest]
  | expression hget =>
    cases hv' with
    | atom htree => exact nomatch htree
    | expression hget' => rw [Option.some.inj (hget.symm.trans hget')]

theorem of_keeps (hv : heap.Unfolds v t) (hw : heap.WellFormed) (hkeeps : heap.Keeps heap' held)
    (hreach : heap.Reachable held v) : heap'.Unfolds v t := by
  induction hv with
  | atom htree => exact .atom htree
  | string hget => exact .string ((hkeeps _ _ hreach).trans hget)
  | @tuple h items trees hget hlength _ ih =>
    refine .tuple ((hkeeps _ _ hreach).trans hget) hlength fun i hi hi' => ih i hi hi' (hreach.child ?_)
    exact mem_children_of_tuple hw hget (List.get_mem _ _)
  | nil => exact .nil
  | @cell h tail head tree trees hsentinel hget _ _ ihhead ihtail =>
    have hchildren := children_of_cell hsentinel hget
    refine .cell hsentinel ((hkeeps _ _ hreach).trans hget) (ihhead (hreach.child ?_)) (ihtail (hreach.child ?_))
    · simp [hchildren]
    · simp [hchildren]
  | expression hget => exact .expression ((hkeeps _ _ hreach).trans hget)

theorem forall₂_of_keeps {vs : List Value} {ts : List Tree} (hvs : List.Forall₂ heap.Unfolds vs ts)
    (hw : heap.WellFormed) (hkeeps : heap.Keeps heap' held) (hreach : ∀ v ∈ vs, heap.Reachable held v) :
    List.Forall₂ heap'.Unfolds vs ts := by
  induction hvs with
  | nil => exact .nil
  | @cons v t vs ts hv _ ih =>
    refine .cons (hv.of_keeps hw hkeeps (hreach v List.mem_cons_self)) (ih fun w hw' => ?_)
    exact hreach w (List.mem_cons_of_mem v hw')

end Unfolds

theorem exists_forall₂ {α β : Type} {r : α → β → Prop} {xs : List α} (hxs : ∀ x ∈ xs, ∃ y, r x y) :
    ∃ ys, List.Forall₂ r xs ys := by
  induction xs with
  | nil => exact ⟨[], .nil⟩
  | cons x xs ih =>
    obtain ⟨y, hy⟩ := hxs x List.mem_cons_self
    obtain ⟨ys, hys⟩ := ih fun x' hx' => hxs x' (List.mem_cons_of_mem x hx')
    exact ⟨y :: ys, .cons hy hys⟩

/-- In an acyclic heap, a value unfolds if all that it reaches is live. -/
theorem Acyclic.exists_unfolds (hacyclic : heap.Acyclic) (hw : heap.WellFormed)
    (hlive : ∀ w, heap.Reachable held w → heap.Live w) (hreach : heap.Reachable held v) : ∃ t, heap.Unfolds v t := by
  induction v using hacyclic.wellFounded.induction with
  | _ v ih =>
    cases v with
    | error | boolean | integer | float | type | opcode => exact ⟨_, .atom rfl⟩
    | ref k h =>
      obtain ⟨x, hget⟩ := Option.isSome_iff_exists.mp (hlive _ hreach)
      cases k with
      | string => exact ⟨_, .string hget⟩
      | expression => exact ⟨_, .expression hget⟩
      | tuple =>
        have hitems : ∀ w ∈ (x : List Value), ∃ t, heap.Unfolds w t := by
          intro w hmem
          have hchild : w ∈ heap.children (.ref .tuple h) := mem_children_of_tuple hw hget hmem
          exact ih w hchild (hreach.child hchild)
        obtain ⟨trees, htrees⟩ := exists_forall₂ hitems
        exact ⟨_, .tuple_of_forall₂ hget htrees⟩
      | list =>
        obtain ⟨head, tail⟩ : Cell := x
        cases hsentinel : h.isSentinel with
        | true =>
          rw [Handle.isSentinel_iff.mp hsentinel]
          exact ⟨_, .nil⟩
        | false =>
          have hchildren := children_of_cell hsentinel hget
          obtain ⟨tree, hhead⟩ := ih head (by simp [hchildren]) (hreach.child (by simp [hchildren]))
          obtain ⟨rest, htail⟩ := ih (.ref .list tail) (by simp [hchildren]) (hreach.child (by simp [hchildren]))
          obtain ⟨trees, rfl⟩ := htail.list_of_ref
          exact ⟨_, .cell hsentinel hget hhead htail⟩

end Heap

end RefMachine
