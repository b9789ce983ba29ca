import Mathlib.Data.List.Chain
import RefMachine.Proofs.Machine.Changes
import RefMachine.Proofs.Machine.History

/-!
# What every move preserves

A variable that is bound stays bound and keeps its mutability, and an immutable one keeps its value (`Scope.Upholds`).
Where the references are accounted for, what the immutable variables reach stays in the heap as well
(`Machine.Preserves`): the scope has a reference to each value, so no release takes the last one.

This holds from each moment of an evaluation to the next (`machinesOf_isChain`). Between two moves of an instruction a
value may be on neither the stack nor in an object; the accounts then count it with those that the host holds, until it
is pushed or released.
-/

namespace RefMachine

namespace Scope

variable {scope scope' scope'' : Scope} {index : Nat}

/-- Every bound variable is bound in the other scope, with the same mutability and, if it is immutable, the same value. -/
def Upholds (scope scope' : Scope) : Prop :=
  ∀ i b, scope.binding? i = some b → ∃ b', scope'.binding? i = some b' ∧ b'.mutability = b.mutability ∧
    (b.mutability = .immutable → b'.value = b.value)

theorem Upholds.refl (scope : Scope) : scope.Upholds scope :=
  fun _ b hb => ⟨b, hb, rfl, fun _ => rfl⟩

theorem Upholds.trans (h : scope.Upholds scope') (h' : scope'.Upholds scope'') : scope.Upholds scope'' := by
  intro i b hb
  obtain ⟨b', hb', hmutability, hvalue⟩ := h i b hb
  obtain ⟨b'', hb'', hmutability', hvalue'⟩ := h' i b' hb'
  refine ⟨b'', hb'', hmutability'.trans hmutability, fun himmutable => ?_⟩
  rw [hvalue' (hmutability.trans himmutable), hvalue himmutable]

theorem upholds_setBinding {b : Binding}
    (hold : ∀ old, scope.binding? index = some old → old.mutability = .mutable ∧ b.mutability = .mutable) :
    scope.Upholds (scope.setBinding index (some b)) := by
  intro i old hi
  by_cases heq : i = index
  · subst heq
    obtain ⟨hmutable, hb⟩ := hold old hi
    refine ⟨b, binding?_setBinding_self (lt_size_of_binding? hi), hb.trans hmutable.symm, fun himmutable => ?_⟩
    rw [hmutable] at himmutable
    cases himmutable
  · rw [← binding?_setBinding_of_ne heq] at hi
    exact ⟨old, hi, rfl, fun _ => rfl⟩

/-- The values of the immutable variables. -/
def constants (scope : Scope) : Set Value :=
  { v | ∃ i b, scope.binding? i = some b ∧ b.mutability = .immutable ∧ b.value = v }

theorem Upholds.constants_subset (hupholds : scope.Upholds scope') : scope.constants ⊆ scope'.constants := by
  rintro v ⟨i, b, hb, himmutable, rfl⟩
  obtain ⟨b', hb', hmutability, hvalue⟩ := hupholds i b hb
  exact ⟨i, b', hb', hmutability.trans himmutable, hvalue himmutable⟩

end Scope

namespace Machine

variable {ε α : Type} {m m' m'' : Machine} {ledger : Ledger} {host host' : Multiset Value} {v : Value}

theorem respects_upholds : Respects fun m m' => m.scope.Upholds m'.scope where
  refl m := .refl m.scope
  trans := .trans
  change hchange := by
    cases hchange with
    | bind hold => exact Scope.upholds_setBinding hold
    | stack | setting | report | heap => exact .refl _

/-! ## What is preserved -/

/-- The bindings are upheld, and the objects that the immutable variables reach are live and unchanged. -/
structure Preserves (m m' : Machine) : Prop where
  bindings : m.scope.Upholds m'.scope
  objects : ∀ k h, m.heap.Reachable m.scope.constants (.ref k h) →
    ∃ x, m.heap.get? k h = some x ∧ m'.heap.get? k h = some x

theorem Preserves.trans (hfirst : m.Preserves m') (hsecond : m'.Preserves m'') : m.Preserves m'' where
  bindings := hfirst.bindings.trans hsecond.bindings
  objects k h hreach := by
    -- What the immutable variables reached at first, those of the later machine reach too.
    have hkeeps : m.heap.Keeps m'.heap m.scope.constants := by
      intro k h hreach
      obtain ⟨x, hget, hget'⟩ := hfirst.objects k h hreach
      rw [hget, hget']
    have hreach' := (hkeeps.reachable hreach).mono hfirst.bindings.constants_subset
    obtain ⟨x, hget, hget'⟩ := hfirst.objects k h hreach
    obtain ⟨x', hlater, hlater'⟩ := hsecond.objects k h hreach'
    rw [hget', Option.some.injEq] at hlater
    exact ⟨x, hget, hlater ▸ hlater'⟩

instance : Trans Preserves Preserves Preserves :=
  ⟨Preserves.trans⟩

/-- The objects that the immutable variables reach are live. -/
def Anchored (m : Machine) : Prop :=
  ∀ v, m.heap.Reachable m.scope.constants v → m.heap.Live v

theorem constants_subset_roots (m : Machine) (host : Multiset Value) :
    m.scope.constants ⊆ { v | v ∈ m.roots host } := by
  rintro v ⟨i, b, hb, -, rfl⟩
  exact mem_roots.mpr (.inr (.inl (Scope.value_mem_values hb)))

theorem Accounts.anchored (ha : m.Accounts ledger host) : m.Anchored :=
  fun _ hreach => Heap.Accounts.live_of_reachable ha (hreach.mono (m.constants_subset_roots host))

theorem Anchored.preserves_of_keeps (hm : m.Anchored) (hupholds : m.scope.Upholds m'.scope)
    (hkeeps : m.heap.Keeps m'.heap m.scope.constants) : m.Preserves m' where
  bindings := hupholds
  objects k h hreach := by
    obtain ⟨x, hget⟩ := Option.isSome_iff_exists.mp (hm _ hreach)
    exact ⟨x, hget, (hkeeps k h hreach).trans hget⟩

theorem Anchored.preserves_of_eq (hm : m.Anchored) (hheap : m'.heap = m.heap) (hscope : m'.scope = m.scope) :
    m.Preserves m' := by
  refine hm.preserves_of_keeps ?_ ?_
  · rw [hscope]
    exact .refl m.scope
  · rw [hheap]
    exact .refl m.heap _

theorem Anchored.of_eq (hm : m.Anchored) (hheap : m'.heap = m.heap) (hscope : m'.scope = m.scope) : m'.Anchored := by
  unfold Anchored
  rw [hheap, hscope]
  exact hm

/-! ## Moves

What is taken from the stack is counted with what the host holds.
-/

/-- The operation preserves what is bound, also where it fails, and what comes next holds after it. -/
def Secures (next : α → Machine → Prop) (m : Machine) : EStateM.Result ε Machine α → Prop :=
  Ends (fun a m' => (m.Preserves m' ∧ m'.Anchored) ∧ next a m') fun _ m' => m.Preserves m' ∧ m'.Anchored

theorem Accounts.of_dropped (ha : m.Accounts ledger host) (n : Nat) :
    (m.dropped n).Accounts ledger (m.stack.take n + host) := by
  have hroots : (m.dropped n).roots (m.stack.take n + host) = m.roots host := by
    rw [m.roots_eq_take_add n host]
    simp only [roots]
    abel
  rw [Machine.Accounts, hroots]
  exact ha

theorem Accounts.of_head (ha : m.Accounts ledger host) (hv : m.stack.head? = some v) :
    (m.dropped 1).Accounts ledger (v ::ₘ host) := by
  rw [Machine.Accounts, ← roots_of_head hv]
  exact ha

theorem Accounts.of_push (ha : m.Accounts ledger (v ::ₘ host)) :
    { m with stack := v :: m.stack }.Accounts ledger host := by
  rw [Machine.Accounts, roots_of_stack rfl]
  rw [Machine.Accounts, roots_cons] at ha
  exact ha

theorem retain_secures (ha : m.Accounts (ledger.excuse v) host) (hlive : m.heap.Live v) :
    Secures (fun _ m' => m'.Accounts ledger (v ::ₘ host) ∧ m'.stack = m.stack) m (faulting (Heap.retain v) m) := by
  refine Ends.adaptExcept (onHeap_ends ((Heap.Accounts.retain ha hlive).mono ?_ ?_))
  · rintro - heap' ⟨ha', hsame, -⟩
    have haccounts : { m with heap := heap' }.Accounts ledger (v ::ₘ host) := by
      rw [Machine.Accounts, roots_cons]
      exact ha'
    exact ⟨⟨ha.anchored.preserves_of_keeps (.refl _) hsame.keeps, haccounts.anchored⟩, haccounts, rfl⟩
  · rintro e heap' ⟨-, rfl⟩
    exact ⟨ha.anchored.preserves_of_eq rfl rfl, ha.anchored⟩

theorem release_secures (ha : m.Accounts ledger (v ::ₘ host)) :
    Secures (fun _ m' => m'.Accounts ledger host) m (onHeap (Heap.release v) m) := by
  have ha' := ha
  rw [Machine.Accounts, roots_cons] at ha'
  obtain ⟨heap', hrun, haccounts, hkeeps, -⟩ := ha'.release
  rw [onHeap_eq, hrun]
  have hpreserves : m.Preserves { m with heap := heap' } :=
    ha.anchored.preserves_of_keeps (.refl _) (hkeeps.mono (m.constants_subset_roots host))
  exact ⟨⟨hpreserves, Accounts.anchored haccounts⟩, haccounts⟩

theorem new_secures {texts : Set String} {k : Kind} {new : HeapM Handle} {more : Handle → Heap → Prop}
    (ha : m.Accounts ledger host')
    (hnew : Ends (fun h heap' => Heap.Accounts.Made texts m.heap ledger (m.roots host) k h heap' ∧ more h heap')
      (fun e heap' => e.Exhausted ∧ heap' = m.heap) (new m.heap)) :
    Secures (fun h m' => m'.Accounts (ledger.excuse (.ref k h)) host ∧ m'.heap.Live (.ref k h)) m (onHeap new m) := by
  refine onHeap_ends (hnew.mono ?_ ?_)
  · rintro h heap' ⟨⟨haccounts, hlive, hgrows⟩, -⟩
    have hpreserves : m.Preserves { m with heap := heap' } :=
      ha.anchored.preserves_of_keeps (.refl _) ((hgrows.keeps ha).mono (m.constants_subset_roots host'))
    exact ⟨⟨hpreserves, Accounts.anchored haccounts⟩, haccounts, hlive⟩
  · rintro e heap' ⟨-, rfl⟩
    exact ⟨ha.anchored.preserves_of_eq rfl rfl, ha.anchored⟩

theorem bindVariable_secures (ha : m.Accounts ledger (v ::ₘ host)) (index : Nat) (mutability : Mutability) :
    Secures (fun _ m' => m'.Accounts ledger (v ::ₘ host)) m (bindVariable index v mutability m) := by
  have hlive : m.heap.Live v := ha.live v (.inl (mem_roots.mpr (.inr (.inr (Multiset.mem_cons_self v host)))))
  have hupholds := respects_upholds.bindVariable index v mutability m
  cases hrun : bindVariable index v mutability m with
  | ok bound m' =>
    obtain ⟨ha', hbinds⟩ := (bindVariable_ends ha hlive index mutability).of_ok hrun
    refine ⟨⟨?_, ha'.anchored⟩, ha'⟩
    cases hbinds with
    | granted _ _ hheap =>
      have hsub := (hupholds.of_ok hrun).constants_subset.trans (m'.constants_subset_roots (v ::ₘ host))
      exact ha.anchored.preserves_of_keeps (hupholds.of_ok hrun) (hheap.keeps.mono hsub)
    | refused => exact ha.anchored.preserves_of_eq rfl rfl
  | error e m' =>
    obtain ⟨-, rfl⟩ := (bindVariable_ends ha hlive index mutability).of_error hrun
    exact ⟨ha.anchored.preserves_of_eq rfl rfl, ha.anchored⟩

end Machine

namespace History

open Machine Carrier

variable {ε α : Type} {m m₀ : Machine} {h : History} {ledger : Ledger} {host : Multiset Value} {v : Value}

/-! ## Linked runs -/

/-- Each moment preserves what the one before it has bound, the first one what the machine `m₀` has, and the present
what the last one has. -/
structure Linked (m₀ : Machine) (h : History) : Prop where
  isChain : (h.machine :: (h.moments.map Moment.machine ++ [m₀])).IsChain fun later earlier => earlier.Preserves later
  anchored : h.machine.Anchored

/-- The operation leaves the run linked, also where it fails, and what comes next holds after it. -/
def Links (m₀ : Machine) (next : α → Machine → Prop) : EStateM.Result ε History α → Prop :=
  Ends (fun a h' => Linked m₀ h' ∧ next a h'.machine) fun _ => Linked m₀

theorem Links.endsIn {next : α → Machine → Prop} {r : EStateM.Result ε History α} (hr : Links m₀ next r) :
    EndsIn (Linked m₀) r :=
  hr.mono (fun _ _ hnext => hnext.1) fun _ _ => id

namespace Linked

theorem start (hm : m.Anchored) : Linked m (start m) := by
  have hrefl : m.Preserves m := hm.preserves_of_eq rfl rfl
  exact ⟨.cons_cons hrefl (.cons_cons hrefl (.singleton m)), hm⟩

theorem advance (hl : Linked m₀ h) (hpreserves : h.machine.Preserves m) (hm : m.Anchored) : Linked m₀ (h.advance m) :=
  ⟨.cons_cons (hm.preserves_of_eq rfl rfl) (hl.isChain.imp_head fun hlast => hlast.trans hpreserves), hm⟩

theorem move (hl : Linked m₀ h) (hheap : m.heap = h.machine.heap) (hscope : m.scope = h.machine.scope) :
    Linked m₀ (h.advance m) :=
  hl.advance (hl.anchored.preserves_of_eq hheap hscope) (hl.anchored.of_eq hheap hscope)

theorem reentered (hl : Linked m₀ h) (entries : List (List Value)) : Linked m₀ { h with entries := entries } :=
  ⟨hl.isChain, hl.anchored⟩

theorem run {next : α → Machine → Prop} {x : MachineM ε α} (hl : Linked m₀ h)
    (hx : Secures next h.machine (x h.machine)) : Links m₀ next (run x h) := by
  change Links m₀ next (History.move x h)
  unfold History.move
  cases hrun : x h.machine with
  | ok a m' =>
    obtain ⟨⟨hpreserves, hm'⟩, hnext⟩ := hx.of_ok hrun
    exact ⟨hl.advance hpreserves hm', hnext⟩
  | error e m' =>
    obtain ⟨hpreserves, hm'⟩ := hx.of_error hrun
    exact hl.advance hpreserves hm'

theorem drop (hl : Linked m₀ h) (n : Nat) :
    Links m₀ (fun _ m' => m' = h.machine.dropped n) ((Carrier.run (Machine.drop n) : HistoryM ε Unit) h) :=
  ⟨hl.move rfl rfl, rfl⟩

theorem dropHead (hl : Linked m₀ h) (ha : h.machine.Accounts ledger host) (hv : h.machine.stack.head? = some v) :
    Links m₀ (fun _ m' => m'.Accounts ledger (v ::ₘ host)) ((Carrier.run (Machine.drop 1) : HistoryM ε Unit) h) :=
  ⟨hl.move rfl rfl, ha.of_head hv⟩

theorem push (hl : Linked m₀ h) (v : Value) :
    Links m₀ (fun _ m' => m' = { h.machine with stack := v :: h.machine.stack })
      ((Carrier.run (Machine.push v) : HistoryM ε Unit) h) :=
  ⟨hl.move rfl rfl, rfl⟩

theorem report (hl : Linked m₀ h) (d : Diagnostic) :
    Links m₀ (fun _ m' => m' = { h.machine with diagnostics := h.machine.diagnostics ++ [d] })
      ((Carrier.run (Machine.report d) : HistoryM ε Unit) h) :=
  ⟨hl.move rfl rfl, rfl⟩

theorem pop? (hl : Linked m₀ h) (ha : h.machine.Accounts ledger host) :
    Links m₀ (fun v m' => m'.Accounts ledger (v.elim host fun w => w ::ₘ host))
      ((Carrier.run Machine.pop? : HistoryM ε _) h) := by
  change Links m₀ _ (History.move Machine.pop? h)
  unfold History.move
  cases hstack : h.machine.stack with
  | nil =>
    rw [pop?_of_nil hstack]
    exact ⟨hl.move rfl rfl, ha⟩
  | cons v rest =>
    rw [pop?_of_cons hstack]
    exact ⟨hl.move rfl rfl, ha.of_head (by rw [hstack]; rfl)⟩

theorem afterwards {r : EStateM.Result ε History α} {f : History → History} (hr : EndsIn (Linked m₀) r)
    (hf : ∀ h, Linked m₀ h → Linked m₀ (f h)) : EndsIn (Linked m₀) (afterwards f r) := by
  cases r with
  | ok a h => exact hf h hr
  | error e h => exact hf h hr

/-! ## Actions -/

theorem share (hl : Linked m₀ h) (ha : h.machine.Accounts (ledger.excuse v) host) (hlive : h.machine.heap.Live v) :
    EndsIn (Linked m₀) (share v h) :=
  (hl.run (retain_secures ha hlive)).bind fun _ _ hnext => (hnext.1.push v).endsIn

theorem shareNew {k : Kind} {new : HistoryM Halt Handle}
    (hnew : Links m₀ (fun a m' => m'.Accounts (ledger.excuse (.ref k a)) host ∧ m'.heap.Live (.ref k a)) (new h)) :
    EndsIn (Linked m₀) ((new >>= fun a => Machine.share (.ref k a)) h) :=
  hnew.bind fun _ _ hnext => hnext.1.share hnext.2.1 hnext.2.2

theorem discard (hl : Linked m₀ h) (ha : h.machine.Accounts ledger host) (n : Nat) :
    Links m₀ (fun _ m' => m'.Accounts ledger host) (Machine.discard n h) := by
  induction n generalizing h with
  | zero => exact ⟨hl, ha⟩
  | succ n ih =>
    refine (hl.pop? ha).bind ?_
    rintro v h₁ ⟨hl₁, ha₁⟩
    cases v with
    | none => exact ⟨hl₁, ha₁⟩
    | some v => exact (hl₁.run (release_secures ha₁)).bind fun _ _ hnext => ih hnext.1 hnext.2

theorem packTuple (hl : Linked m₀ h) (ha : h.machine.Accounts ledger host) (arity : Nat) :
    Links m₀ (fun a m' => m'.Accounts (ledger.excuse (.ref .tuple a)) host ∧ m'.heap.Live (.ref .tuple a))
      (Machine.packTuple arity h) := by
  refine Ends.bind_get ?_
  split_ifs with hlt
  · exact hl
  · refine (hl.drop arity).bind ?_
    rintro - h₁ ⟨hl₁, hm₁⟩
    have hpack : h₁.machine.heap.Accounts ledger
        (Kind.references .tuple (h.machine.stack.take arity) + h₁.machine.roots host) := by
      rw [hm₁, Kind.references, Multiset.coe_reverse, ← roots_eq_take_add]
      exact ha
    have ha₁ : h₁.machine.Accounts ledger (h.machine.stack.take arity + host) := by
      rw [hm₁]
      exact ha.of_dropped arity
    exact hl₁.run (Ends.adaptExcept (new_secures ha₁ (Heap.Accounts.made_of_insert hpack h₁.machine.texts)))

theorem intern (hl : Linked m₀ h) (ha : h.machine.Accounts ledger host) {text : String}
    (htext : text ∈ h.machine.texts) (record : Expression → HistoryM Fault Value) :
    EndsIn (Linked m₀) (perform record (.intern text) h) :=
  shareNew (hl.run (Ends.adaptExcept (new_secures ha (Heap.Accounts.made_of_internString ha htext))))

theorem cons (hl : Linked m₀ h) (ha : h.machine.Accounts ledger host) {head : Value} {tail : Handle}
    (htop : h.machine.stack.take 2 = [head, .ref .list tail]) (record : Expression → HistoryM Fault Value) :
    EndsIn (Linked m₀) (perform record (.cons head tail) h) := by
  refine (hl.drop 2).bind ?_
  rintro - h₁ ⟨hl₁, hm₁⟩
  have ha₁ : h₁.machine.Accounts ledger (head ::ₘ .ref .list tail ::ₘ host) := by
    rw [hm₁]
    have hdropped := ha.of_dropped 2
    rw [htop, ← Multiset.cons_coe, ← Multiset.cons_coe, Multiset.coe_nil, Multiset.cons_add, Multiset.cons_add,
      zero_add] at hdropped
    exact hdropped
  have hcons : h₁.machine.heap.Accounts ledger (head ::ₘ .ref .list tail ::ₘ h₁.machine.roots host) := by
    rw [← roots_cons, ← roots_cons]
    exact ha₁
  exact shareNew (hl₁.run (Ends.adaptExcept (new_secures ha₁ (Heap.Accounts.made_of_cons hcons h₁.machine.texts))))

theorem quote (hl : Linked m₀ h) (ha : h.machine.Accounts ledger host) {e : Expression}
    (htop : ∀ w ∈ h.machine.stack.take 1, ¬ w.Counted) (record : Expression → HistoryM Fault Value) :
    EndsIn (Linked m₀) (perform record (.quote e) h) := by
  refine (hl.drop 1).bind ?_
  rintro - h₁ ⟨hl₁, hm₁⟩
  have ha₁ : h₁.machine.Accounts ledger host := by
    rw [hm₁]
    exact ha.dropped htop
  refine Ends.bind (Ends.adaptExcept (hl₁.discard ha₁ e.code.length)) ?_
  rintro - h₂ ⟨hl₂, ha₂⟩
  have hquote : h₂.machine.heap.Accounts ledger (Kind.references .expression e + h₂.machine.roots host) := by
    rw [Kind.references, Multiset.coe_nil, zero_add]
    exact ha₂
  exact shareNew (hl₂.run (Ends.adaptExcept (new_secures ha₂ (Heap.Accounts.made_of_insert hquote h₂.machine.texts))))

theorem replace (hl : Linked m₀ h) (ha : h.machine.Accounts ledger host) {old new : Value}
    (hold : h.machine.stack.head? = some old) (hlive : h.machine.heap.Live new)
    (record : Expression → HistoryM Fault Value) : EndsIn (Linked m₀) (perform record (.replace old new) h) := by
  refine (hl.run (retain_secures (ha.excuse new) hlive)).bind ?_
  rintro - h₁ ⟨hl₁, ha₁, hstack₁⟩
  -- The host holds the new value until it is pushed, and the old one until it is released.
  refine (hl₁.dropHead ha₁ (hstack₁ ▸ hold)).bind ?_
  rintro - h₂ ⟨hl₂, ha₂⟩
  refine (hl₂.push new).bind ?_
  rintro - h₃ ⟨hl₃, hm₃⟩
  have ha₃ : h₃.machine.Accounts ledger (old ::ₘ host) := by
    rw [Multiset.cons_swap] at ha₂
    rw [hm₃]
    exact ha₂.of_push
  exact (hl₃.run (Ends.adaptExcept (release_secures ha₃))).endsIn

theorem assign (hl : Linked m₀ h) (ha : h.machine.Accounts ledger host) (hv : h.machine.stack.head? = some v)
    (index : Nat) (mutability : Mutability) (record : Expression → HistoryM Fault Value) :
    EndsIn (Linked m₀) (perform record (.assign v index mutability) h) := by
  refine (hl.dropHead ha hv).bind ?_
  rintro - h₁ ⟨hl₁, ha₁⟩
  refine (hl₁.run (Ends.adaptExcept (bindVariable_secures ha₁ index mutability))).bind ?_
  rintro bound h₂ ⟨hl₂, ha₂⟩
  split_ifs
  · exact (hl₂.run (Ends.adaptExcept (release_secures ha₂))).bind fun _ _ hnext => hnext.1
  · exact (hl₂.push bound).endsIn

end Linked

section Instructions

variable {record : Expression → HistoryM Fault Value} {plain : Expression → MachineM Fault Value} {floor : List Value}

/-- Whatever is evaluated leaves the run linked, where the references are accounted for. -/
def Linking (m₀ : Machine) (ledger : Ledger) (host : Multiset Value) (record : Expression → HistoryM Fault Value) :
    Prop :=
  ∀ e h, Linked m₀ h → h.machine.Accounts ledger host → EndsIn (Linked m₀) (record e h)

theorem Linked.evaluate (hrecord : Linking m₀ ledger host record) (hl : Linked m₀ h)
    (ha : h.machine.Accounts ledger host) {handle : Value} (hhandle : h.machine.stack.head? = some handle)
    (e : Expression) : EndsIn (Linked m₀) (perform record (.evaluate handle e) h) := by
  refine (hl.dropHead ha hhandle).bind ?_
  rintro - h₁ ⟨hl₁, ha₁⟩
  refine (hl₁.run (Ends.adaptExcept (release_secures ha₁))).bind ?_
  rintro - h₂ ⟨hl₂, ha₂⟩
  have hdeeper := hrecord e h₂.deeper (hl₂.move rfl rfl) ha₂
  have hnest : EndsIn (Linked m₀) (nest record e h₂) := Linked.afterwards hdeeper fun _ hl => hl.move rfl rfl
  refine Ends.bind (Ends.adaptExcept hnest) ?_
  intro v h₃ hl₃
  split_ifs
  · exact hl₃
  · exact (hl₃.push v).endsIn

theorem Linked.perform (hrecord : Linking m₀ ledger host record) (hl : Linked m₀ h)
    (ha : h.machine.Accounts ledger host) {action : Action} (hw : h.machine.Warrants action) :
    EndsIn (Linked m₀) (perform record action h) := by
  cases action with
  | skip => exact hl
  | push v => exact hl.share (ha.excuse v) hw.supports
  | intern text => exact hl.intern ha hw.supports record
  | replace old new => exact hl.replace ha hw.supports.1 (live_of_replace ha hw.supports.2) record
  | compare b => exact (hl.drop 2).bind fun _ _ hnext => (hnext.1.push _).endsIn
  | pack arity => exact Linked.shareNew (Ends.adaptExcept (hl.packTuple ha arity))
  | quote e => exact hl.quote ha hw.supports record
  | evaluate handle e => exact hl.evaluate hrecord ha hw.supports.1 e
  | cons head tail => exact hl.cons ha hw.supports record
  | assign v index mutability => exact hl.assign ha hw.supports index mutability record

theorem Linked.step (hrecord : Linking m₀ ledger host record) (hl : Linked m₀ h)
    (ha : h.machine.Accounts ledger host) (i : Instruction) : EndsIn (Linked m₀) (step record i h) := by
  have hpasses := resolve_passes ha i
  refine Ends.bind_get ?_
  rw [machine_carried]
  cases hresolve : h.machine.resolve i with
  | ok action =>
    rw [hresolve] at hpasses
    exact hl.perform hrecord ha hpasses
  | error halt => exact hl

/-! ## Evaluations -/

theorem Linked.runCode (hplain : ∀ e, Records (record e) (plain e))
    (hev : ∀ e m, m.Accounts ledger host → Evaluates ledger ∅ host m (plain e m))
    (hrecord : Linking m₀ ledger host record) (hl : Linked m₀ h) (ha : h.machine.Accounts ledger host)
    (hbase : h.machine.base = floor.length) (hfloor : floor <:+ h.machine.stack) (code : List Instruction) :
    EndsIn (Linked m₀) (runCode record code h) := by
  induction code generalizing h with
  | nil => exact hl
  | cons i rest ih =>
    have hstep := hl.step hrecord ha i
    unfold Machine.runCode
    cases hrun : Machine.step record i h with
    | ok a h₁ =>
      -- That the references stay accounted for is known of the machine without its record.
      have herase := step_records hplain i h
      rw [hrun] at herase
      obtain ⟨ha₁, he⟩ := (step_ends ha hbase hfloor (spares_empty _ i) fun _ e heap₁ _ _ =>
        hev e (h.machine.descended heap₁)).of_ok herase.symm
      rw [bind_apply_of_ok hrun]
      exact ih (hstep.of_ok hrun) ha₁ (he.base_eq.trans hbase) he.suffix
    | error halt h₁ =>
      rw [bind_apply_of_error hrun]
      exact hstep.of_error hrun

theorem Linked.abandon (hl : Linked m₀ h) (ha : h.machine.Accounts ledger host) (entry : Nat) :
    EndsIn (Linked m₀) (abandon entry h) := by
  refine Ends.bind ?_ fun _ _ hl₁ => hl₁
  exact Ends.adaptExcept (hl.discard ha _).endsIn

theorem Linked.takeResult (hl : Linked m₀ h) (ha : h.machine.Accounts ledger host) (entry : Nat) :
    EndsIn (Linked m₀) (takeResult entry h) := by
  refine Ends.bind_get ?_
  split_ifs
  · exact (hl.report _).bind fun _ _ hnext => hnext.1
  · exact (hl.pop? ha).bind fun _ _ hnext => hnext.1
  · refine (hl.pop? ha).bind ?_
    rintro v h₁ ⟨hl₁, ha₁⟩
    refine (hl₁.report _).bind ?_
    rintro - h₂ ⟨hl₂, hm₂⟩
    have ha₂ : h₂.machine.Accounts ledger (v.getD .error ::ₘ host) := by
      rw [hm₂]
      cases v with
      | none =>
        rw [Machine.Accounts, roots_cons]
        exact Heap.Accounts.cons_of_not_counted ha₁ fun hcounted => hcounted
      | some v => exact ha₁
    exact (hl₂.run (Ends.adaptExcept (release_secures ha₂))).bind fun _ _ hnext => hnext.1.abandon hnext.2 entry

theorem Linked.leave {r : EStateM.Result Halt History Unit} (hr : EndsIn (Linked m₀) r)
    (ha : (∀ f m, erase r ≠ .error (.fault f) m) → (endState (erase r)).Accounts ledger host) (entry : Nat) :
    EndsIn (Linked m₀) (leave entry r) := by
  cases r with
  | ok a h => exact Linked.takeResult hr (ha fun f m hf => by cases hf) entry
  | error halt h =>
    cases halt with
    | diagnostic d =>
      have ha' : h.machine.Accounts ledger host := ha fun f m hf => by cases hf
      refine (Linked.report hr d).bind ?_
      rintro - h₁ ⟨hl₁, hm₁⟩
      exact hl₁.abandon (by rw [hm₁]; exact ha') entry
    | reported => exact Linked.abandon hr (ha fun f m hf => by cases hf) entry
    | fault f => exact hr

theorem linking_enter (hplain : ∀ e, Records (record e) (plain e))
    (hev : ∀ e m, m.Accounts ledger host → Evaluates ledger ∅ host m (plain e m))
    (hrecord : Linking m₀ ledger host record) : Linking m₀ ledger host (enter record) := by
  intro e h hl ha
  cases hcode : e.code.isEmpty with
  | true =>
    rw [enter_of_isEmpty hcode]
    exact hl
  | false =>
    have hopened : Linked m₀ h.opened := (hl.reentered _).move rfl rfl
    have hrun := hopened.runCode hplain hev hrecord ha rfl (List.suffix_refl _) e.code
    have hends : Ends (fun _ => Continues ledger ∅ h.machine.stack host h.opened.machine)
        (Stops ledger ∅ h.machine.stack host h.opened.machine) (erase (Machine.runCode record e.code h.opened)) := by
      rw [runCode_records hplain e.code h.opened]
      exact runCode_ends ha rfl (List.suffix_refl _) (fun i m _ => m.spares_empty i)
        fun _ m _ e heap₁ _ _ _ ha₁ => hev e (m.descended heap₁) ha₁
    have hleave := Linked.leave hrun (fun hfault => (continues_endState hends hfault).accounts) h.machine.stack.length
    rw [enter_of_code hcode]
    exact Linked.afterwards hleave fun h' hl' => (hl'.reentered h.entries).move rfl rfl

end Instructions

theorem linking_evaluateWithin (m₀ : Machine) (ledger : Ledger) (host : Multiset Value) (room : Nat) :
    Linking m₀ ledger host (evaluateWithin room) := by
  induction room with
  | zero => exact linking_enter (innerWithin_records 0) (fun e _ => innerWithin_ends 0 e) fun _ _ hl _ => hl
  | succ room ih => exact linking_enter (innerWithin_records (room + 1)) (fun e _ => innerWithin_ends (room + 1) e) ih

theorem Linked.evaluateOn (hl : Linked m₀ h) (ha : h.machine.Accounts ledger host) (e : Expression) :
    Linked m₀ (endState (evaluateOn e h)) :=
  (linking_evaluateWithin m₀ ledger host _ e h hl ha).endState

/-- The machines of all moments of an evaluation, the earliest first. -/
def machinesOf (e : Expression) (m : Machine) : List Machine :=
  ((momentsOf e m).map Moment.machine).reverse

/-- **Preservation along an evaluation.** Each of `machinesOf e m` preserves what the one before it has bound, and so
does the machine at the end, with whatever chain goes on from there. -/
theorem machinesOf_isChain {e : Expression} {m' : Machine} {tail : List Machine} (ha : m.Accounts ledger host)
    (hend : endState (Machine.evaluate e m) = m') (htail : (m' :: tail).IsChain Preserves) :
    (m :: (machinesOf e m ++ m' :: tail)).IsChain Preserves := by
  have hmachine : (endState (Machine.evaluateOn e (History.start m))).machine = m' := by
    rw [← endState_erase, erase_evaluateOn]
    exact hend
  have hlinked := ((Linked.start ha.anchored).evaluateOn ha e).isChain
  rw [hmachine, ← List.isChain_reverse, List.reverse_cons, List.reverse_append, List.reverse_singleton,
    List.singleton_append] at hlinked
  exact List.isChain_split.mpr ⟨hlinked, htail⟩

end History

end RefMachine
