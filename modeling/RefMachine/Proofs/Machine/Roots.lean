import RefMachine.Machine.Evaluate
import RefMachine.Proofs.Heap.Objects
import Mathlib.Tactic.Abel

/-!
# What a machine holds

The roots of a machine are the values on its stack and in its scope, together with those that its host holds. A machine
accounts for its references when its heap does so for these roots.

`Evolves frozen floor host m m'` collects what running a program never changes: the literals, the limits, the base and
the depth, the stack up to `floor`, the variables in `frozen`, and all that can be reached from these and from what the
host holds. No cycle is closed on the way, and no text is shared but those of literals.
-/

namespace RefMachine

namespace Scope

variable {scope : Scope} {index i : Nat} {binding : Option Binding}

@[simp] theorem size_setBinding (scope : Scope) (index : Nat) (binding : Option Binding) :
    (scope.setBinding index binding).size = scope.size := by
  simp [size, setBinding]

theorem binding?_setBinding_of_ne (hne : i ≠ index) :
    (scope.setBinding index binding).binding? i = scope.binding? i := by
  simp only [binding?, setBinding, Array.getElem?_modify, if_neg (Ne.symm hne)]

theorem binding?_setBinding_self (hlt : index < scope.size) :
    (scope.setBinding index binding).binding? index = binding := by
  have hget : scope.slots[index]? = some scope.slots[index] := Array.getElem?_eq_getElem hlt
  simp [binding?, setBinding, Array.getElem?_modify, hget]

theorem value_mem_values {b : Binding} (hb : scope.binding? i = some b) : b.value ∈ scope.values := by
  obtain ⟨x, hx, hbinding⟩ := Option.bind_eq_some_iff.mp hb
  refine List.mem_filterMap.mpr ⟨x, Array.mem_toList_iff.mpr (Array.mem_of_getElem? hx), ?_⟩
  rw [hbinding, Option.map_some]

theorem coe_filterMap_cons {α β : Type} (f : α → Option β) (x : α) (xs : List α) :
    ((x :: xs).filterMap f : Multiset β) = (f x).toList + xs.filterMap f := by
  cases hx : f x <;> simp [hx, ← Multiset.cons_coe]

theorem filterMap_modify {α β : Type} (f : α → Option β) (g : α → α) {xs : List α} {x : α} (hx : xs[index]? = some x) :
    ((xs.modify index g).filterMap f + (f x).toList : Multiset β) = xs.filterMap f + (f (g x)).toList := by
  induction xs generalizing index with
  | nil => simp at hx
  | cons y ys ih =>
    cases index with
    | zero =>
      rw [List.getElem?_cons_zero, Option.some.injEq] at hx
      subst hx
      rw [List.modify_zero_cons, coe_filterMap_cons, coe_filterMap_cons]
      abel
    | succ index =>
      rw [List.getElem?_cons_succ] at hx
      rw [List.modify_succ_cons, coe_filterMap_cons, coe_filterMap_cons, add_assoc, ih hx, add_assoc]

theorem values_setBinding (hlt : index < scope.size) :
    ((scope.setBinding index binding).values + ((scope.binding? index).map Binding.value).toList : Multiset Value) =
      scope.values + (binding.map Binding.value).toList := by
  have hget : scope.slots.toList[index]? = some scope.slots[index] := by
    rw [Array.getElem?_toList]
    exact Array.getElem?_eq_getElem hlt
  have hold : scope.binding? index = scope.slots[index].binding := by
    rw [binding?, ← Array.getElem?_toList, hget, Option.bind_some]
  rw [hold, values, values, setBinding, Array.toList_modify]
  exact filterMap_modify (fun x => x.binding.map Binding.value) (fun x => { x with binding := binding }) hget

theorem lt_size_of_binding? {b : Binding} (hb : scope.binding? i = some b) : i < scope.size := by
  by_contra hge
  have hnone : scope.slots[i]? = none := Array.getElem?_eq_none (Nat.le_of_not_lt hge)
  simp [binding?, hnone] at hb

theorem values_eq_nil (hunset : ∀ i, scope.binding? i = none) : scope.values = [] := by
  refine List.filterMap_eq_nil_iff.mpr fun x hx => ?_
  obtain ⟨i, hi, hget⟩ := List.mem_iff_getElem.mp hx
  have hbinding : scope.binding? i = x.binding := by
    rw [binding?, ← Array.getElem?_toList, List.getElem?_eq_getElem hi, hget, Option.bind_some]
  rw [← hbinding, hunset i, Option.map_none]

theorem exists_of_mem_values {v : Value} (hv : v ∈ scope.values) : ∃ i b, scope.binding? i = some b ∧ b.value = v := by
  obtain ⟨x, hx, hvalue⟩ := List.mem_filterMap.mp hv
  obtain ⟨b, hb, rfl⟩ := Option.map_eq_some_iff.mp hvalue
  obtain ⟨i, hi, hget⟩ := List.mem_iff_getElem.mp hx
  refine ⟨i, b, ?_, rfl⟩
  rw [binding?, ← Array.getElem?_toList, List.getElem?_eq_getElem hi, hget, Option.bind_some, hb]

theorem values_eq_of_binding? {scope' : Scope} (hsize : scope'.size = scope.size)
    (hbinding : ∀ i, scope'.binding? i = scope.binding? i) : scope'.values = scope.values := by
  have hslots : scope'.slots.toList.map Variable.binding = scope.slots.toList.map Variable.binding := by
    refine List.ext_getElem (by simpa [size] using hsize) fun i hi hi' => ?_
    rw [List.length_map] at hi hi'
    have heq := hbinding i
    rw [binding?, binding?, ← Array.getElem?_toList, ← Array.getElem?_toList, List.getElem?_eq_getElem hi,
      List.getElem?_eq_getElem hi', Option.bind_some, Option.bind_some] at heq
    rw [List.getElem_map, List.getElem_map, heq]
  have hvalues : ∀ scope : Scope,
      scope.values = (scope.slots.toList.map Variable.binding).filterMap (Option.map Binding.value) := by
    intro scope
    rw [values, List.filterMap_map]
    rfl
  rw [hvalues, hvalues, hslots]

/-- Whether a request to bind a variable is granted: the variable is unset, or it and the request are mutable. -/
def Accepts (scope : Scope) (index : Nat) (mutability : Mutability) : Prop :=
  match scope.lookup index with
  | .ok none => True
  | .ok (some old) => mutability = .mutable ∧ old.mutability = .mutable
  | .error _ => False

theorem lookup_cases (scope : Scope) (index : Nat) :
    (index < scope.size ∧ scope.lookup index = .ok (scope.binding? index)) ∨
      (scope.size ≤ index ∧ scope.lookup index = .error (.outOfRange index scope.size)) := by
  by_cases hlt : index < scope.size
  · have hget : scope.slots[index]? = some scope.slots[index] := Array.getElem?_eq_getElem hlt
    exact .inl ⟨hlt, by simp [lookup, binding?, hget]⟩
  · have hget : scope.slots[index]? = none := Array.getElem?_eq_none (Nat.le_of_not_lt hlt)
    exact .inr ⟨Nat.le_of_not_lt hlt, by simp [lookup, hget]⟩

end Scope

namespace Machine

variable {m m' m'' : Machine} {ledger : Ledger} {host : Multiset Value} {frozen : Set Nat} {floor floor' : List Value}

/-- The values that a machine holds, and beside it its host. -/
def roots (m : Machine) (host : Multiset Value) : Multiset Value :=
  m.stack + m.scope.values + host

def Accounts (m : Machine) (ledger : Ledger) (host : Multiset Value) : Prop :=
  m.heap.Accounts ledger (m.roots host)

/-- The counts of the heap are the references of the stack, the scope, the host and the objects. -/
def Balanced (m : Machine) (host : Multiset Value) : Prop :=
  m.heap.Balanced (m.roots host)

/-- The counts of the heap are at least the references of the stack, the scope, the host and the objects. -/
def Safe (m : Machine) (host : Multiset Value) : Prop :=
  m.heap.Safe (m.roots host)

theorem balanced_iff : m.Balanced host ↔ m.Accounts .exact host :=
  Heap.balanced_iff

theorem balanced_new (literals : Literals) (limits : Limits) :
    Balanced { literals := literals, limits := limits } 0 :=
  Heap.balanced_empty

theorem roots_cons (m : Machine) (v : Value) (host : Multiset Value) : m.roots (v ::ₘ host) = v ::ₘ m.roots host :=
  Multiset.add_cons _ _ _

theorem roots_of_stack {v : Value} {rest : List Value} (hstack : m.stack = v :: rest) :
    m.roots host = v ::ₘ { m with stack := rest }.roots host := by
  simp only [roots, hstack, ← Multiset.cons_coe, Multiset.cons_add]

theorem mem_roots {v : Value} : v ∈ m.roots host ↔ v ∈ m.stack ∨ v ∈ m.scope.values ∨ v ∈ host := by
  simp only [roots, Multiset.mem_add, Multiset.mem_coe, or_assoc]

/-- The texts that instructions can load. -/
def texts (m : Machine) : Set String :=
  { text | ∃ id, m.literals.text? id = some text }

/-! ## What stays -/

/-- The values that stay in place: those up to the floor, in frozen variables, and with the host. -/
def held (m : Machine) (frozen : Set Nat) (floor : List Value) (host : Multiset Value) : Set Value :=
  { v | v ∈ floor ∨ v ∈ host ∨ ∃ i ∈ frozen, ∃ b, m.scope.binding? i = some b ∧ b.value = v }

theorem held_subset_roots (hfloor : floor <:+ m.stack) : m.held frozen floor host ⊆ { v | v ∈ m.roots host } := by
  rintro v (hv | hv | ⟨i, -, b, hb, rfl⟩)
  · exact mem_roots.mpr (.inl (hfloor.subset hv))
  · exact mem_roots.mpr (.inr (.inr hv))
  · exact mem_roots.mpr (.inr (.inl (Scope.value_mem_values hb)))

/-- What a machine and a later one have in common. -/
structure Evolves (frozen : Set Nat) (floor : List Value) (host : Multiset Value) (m m' : Machine) : Prop where
  literals_eq : m'.literals = m.literals
  limits_eq : m'.limits = m.limits
  base_eq : m'.base = m.base
  depth_eq : m'.depth = m.depth
  size_eq : m'.scope.size = m.scope.size
  binding_eq : ∀ i ∈ frozen, m'.scope.binding? i = m.scope.binding? i
  suffix : floor <:+ m'.stack
  heap : m.heap.Evolves m.texts (m.held frozen floor host) m'.heap

namespace Evolves

theorem refl (hfloor : floor <:+ m.stack) : m.Evolves frozen floor host m :=
  ⟨rfl, rfl, rfl, rfl, rfl, fun _ _ => rfl, hfloor, .refl _⟩

theorem held_eq (he : m.Evolves frozen floor host m') : m'.held frozen floor host = m.held frozen floor host := by
  ext v
  refine or_congr_right (or_congr_right (exists_congr fun i => and_congr_right fun hi => ?_))
  rw [he.binding_eq i hi]

theorem texts_eq (he : m.Evolves frozen floor host m') : m'.texts = m.texts := by
  rw [texts, he.literals_eq, texts]

theorem trans (h₁ : m.Evolves frozen floor host m') (h₂ : m'.Evolves frozen floor host m'') :
    m.Evolves frozen floor host m'' where
  literals_eq := h₂.literals_eq.trans h₁.literals_eq
  limits_eq := h₂.limits_eq.trans h₁.limits_eq
  base_eq := h₂.base_eq.trans h₁.base_eq
  depth_eq := h₂.depth_eq.trans h₁.depth_eq
  size_eq := h₂.size_eq.trans h₁.size_eq
  binding_eq i hi := (h₂.binding_eq i hi).trans (h₁.binding_eq i hi)
  suffix := h₂.suffix
  heap := h₁.heap.trans (h₁.held_eq ▸ h₁.texts_eq ▸ h₂.heap)

theorem lower (he : m.Evolves frozen floor' host m') (hfloor : floor <:+ floor') : m.Evolves frozen floor host m' where
  literals_eq := he.literals_eq
  limits_eq := he.limits_eq
  base_eq := he.base_eq
  depth_eq := he.depth_eq
  size_eq := he.size_eq
  binding_eq := he.binding_eq
  suffix := hfloor.trans he.suffix
  heap := he.heap.mono fun _ hv => hv.imp_left (hfloor.subset ·)

theorem of_cons {v : Value} (he : m.Evolves frozen floor (v ::ₘ host) m') : m.Evolves frozen floor host m' where
  literals_eq := he.literals_eq
  limits_eq := he.limits_eq
  base_eq := he.base_eq
  depth_eq := he.depth_eq
  size_eq := he.size_eq
  binding_eq := he.binding_eq
  suffix := he.suffix
  heap := he.heap.mono fun _ hw => hw.imp_right (Or.imp_left Multiset.mem_cons_of_mem)

theorem of_heap {heap' : Heap} {stack' : List Value} {diagnostics' : List Diagnostic} (hfloor : floor <:+ stack')
    (hheap : m.heap.Evolves m.texts (m.held frozen floor host) heap') :
    m.Evolves frozen floor host { m with heap := heap', stack := stack', diagnostics := diagnostics' } :=
  ⟨rfl, rfl, rfl, rfl, rfl, fun _ _ => rfl, hfloor, hheap⟩

theorem of_depth {depth : Nat} (he : { m with depth := depth }.Evolves frozen floor host m') :
    m.Evolves frozen floor host { m' with depth := m.depth } :=
  ⟨he.literals_eq, he.limits_eq, he.base_eq, rfl, he.size_eq, he.binding_eq, he.suffix, he.heap⟩

theorem of_base {base : Nat} (he : { m with base := base }.Evolves frozen floor host m') :
    m.Evolves frozen floor host { m' with base := m.base } :=
  ⟨he.literals_eq, he.limits_eq, rfl, he.depth_eq, he.size_eq, he.binding_eq, he.suffix, he.heap⟩

theorem restack {stack' : List Value} (he : m.Evolves frozen floor host m') (hfloor : floor <:+ stack') :
    m.Evolves frozen floor host { m' with stack := stack' } :=
  ⟨he.literals_eq, he.limits_eq, he.base_eq, he.depth_eq, he.size_eq, he.binding_eq, hfloor, he.heap⟩

end Evolves

end Machine

end RefMachine
