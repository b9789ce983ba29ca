import RefMachine.Proofs.Heap.Unfold
import RefMachine.Proofs.Machine.Resolve

/-!
# What actions do

Most actions take some values from the stack and push one in their place (`Pushes`): the references stay accounted for,
what the rest of the machine holds is kept, and the new value stands for the tree that the action means. The only thing
that can go wrong is that the heap comes to its end (`Starves`).

Binding a variable may also be refused, or name a variable that there is not (`bindVariable_ends`).
-/

namespace RefMachine

/-- The action pushes a value, and needs nothing but the heap for it. -/
def Action.Pushing : Action → Prop
  | .skip | .evaluate _ _ | .assign _ _ _ => False
  | _ => True

namespace Machine

variable {m m' : Machine} {ledger : Ledger} {host : Multiset Value} {frozen : Set Nat} {floor : List Value} {v : Value}
  {n : Nat} {means : Tree → Prop}

/-- No two texts that are loaded or shared have one hash. -/
def HashesApart (m : Machine) : Prop :=
  Set.InjOn contentHash (m.texts ∪ m.heap.sharedTexts)

/-- The tree that an action pushes. A shared text is found by its hash alone. -/
inductive Means (m : Machine) : Action → Tree → Prop where
  | push {v : Value} {t : Tree} (hv : m.heap.Unfolds v t) : Means m (.push v) t
  | intern (text : String) (hapart : m.HashesApart) : Means m (.intern text) (.string text)
  | replace {old new : Value} {t : Tree} (hnew : m.heap.Unfolds new t) : Means m (.replace old new) t
  | compare (b : Bool) : Means m (.compare b) (.boolean b)
  | pack {arity : Nat} {trees : List Tree} (hitems : List.Forall₂ m.heap.Unfolds (m.stack.take arity) trees) :
    Means m (.pack arity) (.tuple trees)
  | quote (e : Expression) : Means m (.quote e) (.expression e)
  | cons {head : Value} {tail : Handle} {tree : Tree} {trees : List Tree} (hhead : m.heap.Unfolds head tree)
    (htail : m.heap.Unfolds (.ref .list tail) (.list trees)) : Means m (.cons head tail) (.list (tree :: trees))

/-- The machine with its top values gone. -/
abbrev dropped (m : Machine) (n : Nat) : Machine :=
  { m with stack := m.stack.drop n }

/-- Only the heap and the top `n` values changed, and what the rest of the machine holds is kept. -/
structure Confines (host : Multiset Value) (n : Nat) (m m' : Machine) : Prop where
  machine_eq : m' = { m with heap := m'.heap, stack := m'.stack }
  suffix : m.stack.drop n <:+ m'.stack
  heap : m.heap.Evolves m.texts { w | w ∈ (m.dropped n).roots host } m'.heap

/-- A value with the given meaning took the place of the top `n` values. -/
structure Pushes (ledger : Ledger) (host : Multiset Value) (n : Nat) (means : Tree → Prop) (m m' : Machine) : Prop where
  accounts : m'.Accounts ledger host
  confines : Confines host n m m'
  pushed : ∃ v, m'.stack = v :: m.stack.drop n ∧ ∀ tree, means tree → m'.heap.Unfolds v tree

/-- The heap came to its end with at most `n` values taken. -/
structure Starves (host : Multiset Value) (n : Nat) (m : Machine) (halt : Halt) (m' : Machine) : Prop where
  exhausted : ∃ e : HeapError, halt = .fault (.heap e) ∧ e.Exhausted
  safe : m'.Safe host
  confines : Confines host n m m'

theorem roots_eq_take_add (m : Machine) (n : Nat) (host : Multiset Value) :
    m.roots host = (m.stack.take n : Multiset Value) + (m.dropped n).roots host := by
  have hstack : (m.stack : Multiset Value) = (m.stack.take n : Multiset Value) + m.stack.drop n := by
    rw [Multiset.coe_add, List.take_append_drop]
  simp only [roots, hstack]
  abel

theorem roots_dropped_le (m : Machine) (n : Nat) (host : Multiset Value) : (m.dropped n).roots host ≤ m.roots host := by
  rw [m.roots_eq_take_add n host]
  exact Multiset.le_add_left _ _

theorem roots_dropped_subset : { w | w ∈ (m.dropped n).roots host } ⊆ { w | w ∈ m.roots host } :=
  fun _ hw => Multiset.mem_of_le (m.roots_dropped_le n host) hw

theorem Accounts.dropped (ha : m.Accounts ledger host) (htop : ∀ w ∈ m.stack.take n, ¬ w.Counted) :
    (m.dropped n).Accounts ledger host := by
  refine Heap.Accounts.of_counts ha fun w hw => ?_
  have hnone : (m.stack.take n).count w = 0 := List.count_eq_zero_of_not_mem fun hmem => htop w hmem hw
  rw [m.roots_eq_take_add n host, Multiset.count_add, Multiset.coe_count, hnone, zero_add]

namespace Confines

theorem refl (m : Machine) : Confines host 0 m m :=
  ⟨rfl, List.suffix_refl _, .refl _⟩

theorem evolves (hc : Confines host n m m') (hbase : m.base = floor.length) (hfloor : floor <:+ m.stack)
    (hn : n ≤ m.frame.length) : m.Evolves frozen floor host m' := by
  have hsuffix := suffix_drop hbase hfloor hn
  rw [hc.machine_eq]
  refine .of_heap (hsuffix.trans hc.suffix) (hc.heap.mono ?_)
  exact @held_subset_roots (m.dropped n) _ _ _ hsuffix

theorem of_dropped {heap₁ : Heap} (hheap : m.heap.Evolves m.texts { w | w ∈ (m.dropped n).roots host } heap₁)
    (hc : Confines host 0 { m.dropped n with heap := heap₁ } m') : Confines host n m m' where
  machine_eq := hc.machine_eq
  suffix := hc.suffix
  heap := hheap.trans hc.heap

end Confines

theorem Pushes.of_dropped {heap₁ : Heap} (hheap : m.heap.Evolves m.texts { w | w ∈ (m.dropped n).roots host } heap₁)
    (hp : Pushes ledger host 0 means { m.dropped n with heap := heap₁ } m') : Pushes ledger host n means m m' :=
  ⟨hp.accounts, hp.confines.of_dropped hheap, hp.pushed⟩

theorem Starves.of_dropped {heap₁ : Heap} {halt : Halt}
    (hheap : m.heap.Evolves m.texts { w | w ∈ (m.dropped n).roots host } heap₁)
    (hs : Starves host 0 { m.dropped n with heap := heap₁ } halt m') : Starves host n m halt m' :=
  ⟨hs.exhausted, hs.safe, hs.confines.of_dropped hheap⟩

/-! ## Sharing -/

theorem onHeap_ends {α : Type} {f : HeapM α} {good : α → Machine → Prop} {bad : HeapError → Machine → Prop}
    (hf : Ends (fun a heap' => good a { m with heap := heap' }) (fun e heap' => bad e { m with heap := heap' })
      (f m.heap)) : Ends good bad (onHeap f m) := by
  rw [onHeap_eq]
  cases hrun : f m.heap with
  | ok a heap' =>
    rw [hrun] at hf
    exact hf
  | error e heap' =>
    rw [hrun] at hf
    exact hf

theorem bind_onHeap {ε α β : Type} {f : HeapM α} {g : HeapError → ε} {next : α → MachineM ε β}
    {made : α → Heap → Prop} {failed : HeapError → Heap → Prop} {good : β → Machine → Prop} {bad : ε → Machine → Prop}
    (hf : Ends made failed (f m.heap))
    (hnext : ∀ a heap', made a heap' → Ends good bad (next a { m with heap := heap' }))
    (hbad : ∀ e heap', failed e heap' → bad (g e) { m with heap := heap' }) :
    Ends good bad (((onHeap f).adaptExcept g >>= next) m) := by
  have hrun : Ends (fun a m' => Ends good bad (next a m')) bad ((onHeap f).adaptExcept g m) :=
    Ends.adaptExcept (onHeap_ends (hf.mono hnext hbad))
  exact hrun.bind fun _ _ hends => hends

theorem release_ends {ε : Type} {g : HeapError → ε} {heap' : Heap} {good : Unit → Machine → Prop}
    {bad : ε → Machine → Prop} (hrun : Heap.release v m.heap = .ok () heap') (hgood : good () { m with heap := heap' }) :
    Ends good bad ((onHeap (Heap.release v)).adaptExcept g m) := by
  refine Ends.adaptExcept (onHeap_ends ?_)
  rw [hrun]
  exact hgood

theorem Starves.of_exhausted {e : HeapError} (he : e.Exhausted) (ha : m.Accounts ledger host) :
    Starves host 0 m (.fault (.heap e)) m :=
  ⟨⟨e, rfl, he⟩, ha.safe, .refl m⟩

theorem share_ends (ha : m.Accounts (ledger.excuse v) host) (hlive : m.heap.Live v) :
    Ends (fun _ => Pushes ledger host 0 (m.heap.Unfolds v) m) (Starves host 0 m) (share v m) := by
  refine bind_onHeap (Heap.Accounts.retain ha hlive) ?_ ?_
  · rintro - heap' ⟨ha', hsame, htable⟩
    have haccounts : { m with heap := heap', stack := v :: m.stack }.Accounts ledger host := by
      rw [Machine.Accounts, roots_of_stack rfl]
      exact ha'
    refine ⟨haccounts, ⟨rfl, List.suffix_cons _ _, hsame.evolves ha.wellFormed htable⟩, v, rfl, fun tree htree => ?_⟩
    exact htree.of_keeps ha.wellFormed hsame.keeps (.of_mem (Set.mem_singleton v))
  · rintro e heap' ⟨he, rfl⟩
    exact .of_exhausted he ha

theorem shareNew_ends {k : Kind} {new : HeapM Handle} (ha : m.Accounts ledger host)
    (hnew : Ends (fun h heap' => Heap.Accounts.Made m.texts m.heap ledger ((m.dropped n).roots host) k h heap' ∧
        ∀ tree, means tree → heap'.Unfolds (.ref k h) tree)
      (fun e heap' => e.Exhausted ∧ heap' = m.heap) (new m.heap)) :
    Ends (fun _ => Pushes ledger host n means m) (Starves host n m)
      ((faulting new >>= fun h => share (.ref k h)) (m.dropped n)) := by
  refine @bind_onHeap (m.dropped n) _ _ _ _ _ _ _ _ _ _ hnew ?_ ?_
  · rintro h heap' ⟨⟨ha', hlive, hgrows⟩, hmeans⟩
    have hheap : m.heap.Evolves m.texts { w | w ∈ (m.dropped n).roots host } heap' :=
      (hgrows.evolves ha).mono roots_dropped_subset
    refine (@share_ends { m.dropped n with heap := heap' } _ _ _ ha' hlive).mono (fun _ m' hp => ?_) fun _ _ hs =>
      hs.of_dropped hheap
    obtain ⟨v, hstack, htree⟩ := hp.pushed
    exact ⟨hp.accounts, hp.confines.of_dropped hheap, v, hstack, fun tree hmean => htree tree (hmeans tree hmean)⟩
  · rintro e heap' ⟨he, rfl⟩
    exact ⟨⟨e, rfl, he⟩, Heap.Accounts.safe_of_le ha (m.roots_dropped_le n host), rfl, List.suffix_refl _, .refl _⟩

/-! ## The actions that push -/

theorem intern_ends (ha : m.Accounts ledger host) {text : String} (htext : text ∈ m.texts)
    (evaluate : Expression → MachineM Fault Value) :
    Ends (fun _ => Pushes ledger host 0 (m.Means (.intern text)) m) (Starves host 0 m)
      (perform evaluate (.intern text) m) := by
  refine @shareNew_ends m _ _ 0 _ _ _ ha ((Heap.Accounts.made_of_internString ha htext).mono ?_ fun _ _ hbad => hbad)
  rintro h heap' ⟨hmade, hget⟩
  refine ⟨hmade, fun tree hmean => ?_⟩
  cases hmean with
  | intern _ hapart => exact .string (hget hapart)

theorem live_of_replace (ha : m.Accounts ledger host) {old new : Value}
    (hnew : new ∈ m.heap.children old ∨ ¬ new.Counted) : m.heap.Live new := by
  rcases hnew with hchild | hcounted
  · exact ha.live new (.inr (Heap.occurrences_pos_of_mem_children ha.wellFormed hchild))
  · exact Heap.live_of_not_counted ha.wellFormed hcounted

theorem replace_ends (ha : m.Accounts ledger host) {old new : Value} (hold : m.stack.head? = some old)
    (hnew : new ∈ m.heap.children old ∨ ¬ new.Counted) (evaluate : Expression → MachineM Fault Value) :
    Ends (fun _ => Pushes ledger host 1 (m.Means (.replace old new)) m) (Starves host 1 m)
      (perform evaluate (.replace old new) m) := by
  obtain ⟨rest, hstack⟩ := List.head?_eq_some_iff.mp hold
  have hroots : m.roots host = old ::ₘ (m.dropped 1).roots host := by
    rw [roots_of_stack hstack, dropped, hstack, List.drop_one, List.tail_cons]
  refine bind_onHeap ((Heap.Accounts.excuse ha new).retain (live_of_replace ha hnew)) ?_ ?_
  · rintro - heap₁ ⟨ha₁, hsame, htable⟩
    rw [hroots, Multiset.cons_swap] at ha₁
    obtain ⟨heap₂, hrelease, ha₂, hkeeps, hshrinks⟩ := ha₁.release
    have hheap : m.heap.Evolves m.texts { w | w ∈ (m.dropped 1).roots host } heap₂ := by
      refine (hsame.evolves ha.wellFormed htable).trans (hshrinks.evolves (hkeeps.mono ?_))
      exact fun w hw => Multiset.mem_cons_of_mem hw
    have haccounts : { m with heap := heap₂, stack := new :: m.stack.drop 1 }.Accounts ledger host := by
      rw [Machine.Accounts, roots_of_stack rfl]
      exact ha₂
    refine Ends.bind_modify (Ends.bind_modify (release_ends hrelease ?_))
    refine ⟨haccounts, ⟨rfl, List.suffix_cons _ _, hheap⟩, new, rfl, fun tree hmean => ?_⟩
    cases hmean with
    | replace hunfolds =>
      have hunfolds₁ := hunfolds.of_keeps ha.wellFormed hsame.keeps (.of_mem (Set.mem_singleton new))
      exact hunfolds₁.of_keeps ha₁.wellFormed hkeeps (.of_mem (Multiset.mem_cons_self new _))
  · rintro e heap' ⟨he, rfl⟩
    exact ⟨⟨e, rfl, he⟩, ha.safe, rfl, List.drop_suffix _ _, .refl _⟩

theorem compare_ends (ha : m.Accounts ledger host) (htop : ∀ w ∈ m.stack.take 2, ¬ w.Counted) (b : Bool)
    (evaluate : Expression → MachineM Fault Value) :
    Ends (fun _ => Pushes ledger host 2 (m.Means (.compare b)) m) (Starves host 2 m)
      (perform evaluate (.compare b) m) := by
  have haccounts : { m with stack := .boolean b :: m.stack.drop 2 }.Accounts ledger host := by
    rw [Machine.Accounts, roots_of_stack rfl]
    exact Heap.Accounts.cons_of_not_counted (ha.dropped htop) fun hcounted => hcounted
  refine Ends.bind_modify ?_
  refine ⟨haccounts, ⟨rfl, List.suffix_cons _ _, .refl _⟩, .boolean b, rfl, fun tree hmean => ?_⟩
  cases hmean
  exact .atom rfl

theorem cons_ends (ha : m.Accounts ledger host) {head : Value} {tail : Handle}
    (htop : m.stack.take 2 = [head, .ref .list tail]) (evaluate : Expression → MachineM Fault Value) :
    Ends (fun _ => Pushes ledger host 2 (m.Means (.cons head tail)) m) (Starves host 2 m)
      (perform evaluate (.cons head tail) m) := by
  have hcons : m.heap.Accounts ledger (head ::ₘ .ref .list tail ::ₘ (m.dropped 2).roots host) := by
    have hroots := m.roots_eq_take_add 2 host
    rw [htop, ← Multiset.cons_coe, ← Multiset.cons_coe, Multiset.coe_nil, Multiset.cons_add, Multiset.cons_add,
      zero_add] at hroots
    rw [← hroots]
    exact ha
  refine shareNew_ends ha ((Heap.Accounts.made_of_cons hcons m.texts).mono ?_ fun _ _ hbad => hbad)
  rintro h heap' ⟨hmade, hget, hsentinel⟩
  refine ⟨hmade, fun tree hmean => ?_⟩
  have hkeeps := hmade.2.2.keeps hcons
  cases hmean with
  | cons hhead htail =>
    refine .cell hsentinel hget (hhead.of_keeps ha.wellFormed hkeeps (.of_mem ?_))
      (htail.of_keeps ha.wellFormed hkeeps (.of_mem ?_))
    · exact Multiset.mem_cons_self _ _
    · exact Multiset.mem_cons_of_mem (Multiset.mem_cons_self _ _)

theorem perform_pack {arity : Nat} (harity : arity ≤ m.frame.length) (evaluate : Expression → MachineM Fault Value) :
    perform evaluate (.pack arity) m =
      (faulting (Heap.newTuple (m.stack.take arity)) >>= fun h => share (.ref .tuple h)) (m.dropped arity) := by
  have hnot : ¬ m.frame.length < arity := Nat.not_lt.mpr harity
  have hpack : packTuple arity m =
      (onHeap (Heap.newTuple (m.stack.take arity))).adaptExcept Fault.heap (m.dropped arity) := by
    change (if m.frame.length < arity then _ else _ : MachineM Fault Handle) m = _
    rw [if_neg hnot]
    rfl
  simp only [perform, bind, EStateM.bind, EStateM.adaptExcept, faulting, hpack, onHeap_eq]
  cases Heap.newTuple (m.stack.take arity) m.heap <;> rfl

theorem pack_ends (ha : m.Accounts ledger host) {arity : Nat} (harity : arity ≤ m.frame.length)
    (evaluate : Expression → MachineM Fault Value) :
    Ends (fun _ => Pushes ledger host arity (m.Means (.pack arity)) m) (Starves host arity m)
      (perform evaluate (.pack arity) m) := by
  have hpack : m.heap.Accounts ledger (Kind.references .tuple (m.stack.take arity) + (m.dropped arity).roots host) := by
    rw [Kind.references, Multiset.coe_reverse, ← roots_eq_take_add]
    exact ha
  rw [perform_pack harity]
  refine shareNew_ends ha ((Heap.Accounts.made_of_insert hpack m.texts).mono ?_ fun _ _ hbad => hbad)
  rintro h heap' ⟨hmade, hget, -, -⟩
  refine ⟨hmade, fun tree hmean => ?_⟩
  have hkeeps := hmade.2.2.keeps hpack
  cases hmean with
  | pack hitems =>
    refine .tuple_of_forall₂ hget (Heap.Unfolds.forall₂_of_keeps hitems ha.wellFormed hkeeps fun w hw => .of_mem ?_)
    exact Multiset.mem_add.mpr (.inl (List.mem_reverse.mpr hw))

/-! ## Discarding -/

theorem pop?_of_nil {ε : Type} (hstack : m.stack = []) : (pop? : MachineM ε (Option Value)) m = .ok none m := by
  unfold pop?
  rw [get_bind_apply, hstack]
  rfl

theorem pop?_of_cons {ε : Type} {rest : List Value} (hstack : m.stack = v :: rest) :
    (pop? : MachineM ε (Option Value)) m = .ok (some v) (m.dropped 1) := by
  unfold pop?
  rw [get_bind_apply, hstack]
  rfl

theorem discard_of_nil (hstack : m.stack = []) (n : Nat) : discard n m = .ok () m := by
  cases n with
  | zero => rfl
  | succ n =>
    rw [discard, Carrier.run_eq, bind_apply_of_ok (pop?_of_nil hstack)]
    rfl

theorem discard_of_cons {rest : List Value} (hstack : m.stack = v :: rest) (n : Nat) :
    discard (n + 1) m = (onHeap (Heap.release v) >>= fun _ => discard n) (m.dropped 1) := by
  rw [discard, Carrier.run_eq, bind_apply_of_ok (pop?_of_cons hstack)]
  rfl

theorem discard_eq (ha : m.Accounts ledger host) (n : Nat) :
    ∃ heap', discard n m = .ok () { m.dropped n with heap := heap' } ∧
      heap'.Accounts ledger ((m.dropped n).roots host) ∧
      m.heap.Evolves m.texts { w | w ∈ (m.dropped n).roots host } heap' := by
  induction n generalizing m with
  | zero => exact ⟨m.heap, rfl, ha, .refl _⟩
  | succ n ih =>
    cases hstack : m.stack with
    | nil =>
      have hdropped : m.dropped (n + 1) = m := by
        rw [dropped, hstack, List.drop_nil, ← hstack]
      rw [hdropped]
      exact ⟨m.heap, discard_of_nil hstack _, ha, .refl _⟩
    | cons v rest =>
      have hroots : m.roots host = v ::ₘ (m.dropped 1).roots host := by
        rw [roots_of_stack hstack, dropped, hstack, List.drop_one, List.tail_cons]
      rw [Machine.Accounts, hroots] at ha
      obtain ⟨heap₁, hrelease, ha₁, hkeeps, hshrinks⟩ := ha.release
      obtain ⟨heap₂, hrun, ha₂, hheap₂⟩ := @ih { m.dropped 1 with heap := heap₁ } ha₁
      have hdrop : (m.stack.drop 1).drop n = m.stack.drop (n + 1) := by
        rw [List.drop_drop, Nat.add_comm]
      have hsub := @roots_dropped_subset (m.dropped 1) host n
      have hon : onHeap (Heap.release v) (m.dropped 1) = .ok () { m.dropped 1 with heap := heap₁ } := by
        rw [onHeap_eq, hrelease]
      simp only [dropped, hdrop] at hrun ha₂ hheap₂ hsub
      refine ⟨heap₂, ?_, ha₂, (hshrinks.evolves (hkeeps.mono hsub)).trans hheap₂⟩
      rw [discard_of_cons hstack, bind_apply_of_ok hon]
      exact hrun

theorem quote_ends (ha : m.Accounts ledger host) {e : Expression} (htop : ∀ w ∈ m.stack.take 1, ¬ w.Counted)
    (evaluate : Expression → MachineM Fault Value) :
    Ends (fun _ => Pushes ledger host (e.code.length + 1) (m.Means (.quote e)) m) (Starves host (e.code.length + 1) m)
      (perform evaluate (.quote e) m) := by
  obtain ⟨heap₁, hrun, ha₁, hheap⟩ := discard_eq (ha.dropped htop) e.code.length
  have hdrop : (m.stack.drop 1).drop e.code.length = m.stack.drop (e.code.length + 1) := by
    rw [List.drop_drop, Nat.add_comm]
  simp only [dropped, hdrop] at hrun ha₁ hheap
  have hperform : perform evaluate (.quote e) m =
      (faulting (Heap.newExpression e) >>= fun h => share (.ref .expression h))
        { m.dropped (e.code.length + 1) with heap := heap₁ } := by
    change EStateM.bind ((discard e.code.length).adaptExcept _) _ (m.dropped 1) = _
    simp only [EStateM.bind, EStateM.adaptExcept, dropped, hrun, Carrier.run_eq]
  have hquote : heap₁.Accounts ledger (Kind.references .expression e + (m.dropped (e.code.length + 1)).roots host) := by
    simpa [Kind.references] using ha₁
  have hshare : Ends (fun _ => Pushes ledger host 0 (m.Means (.quote e)) { m.dropped (e.code.length + 1) with heap := heap₁ })
      (Starves host 0 { m.dropped (e.code.length + 1) with heap := heap₁ })
      ((faulting (Heap.newExpression e) >>= fun h => share (.ref .expression h))
        { m.dropped (e.code.length + 1) with heap := heap₁ }) := by
    refine shareNew_ends ha₁ ((Heap.Accounts.made_of_insert hquote m.texts).mono ?_ fun _ _ hbad => hbad)
    rintro h heap' ⟨hmade, hget, -, -⟩
    refine ⟨hmade, fun tree hmean => ?_⟩
    cases hmean
    exact .expression hget
  rw [hperform]
  exact hshare.mono (fun _ _ hp => hp.of_dropped hheap) fun _ _ hs => hs.of_dropped hheap

/-- A pushing action puts a value of its meaning in the place of those that it takes, unless the heap comes to its end.
-/
theorem perform_pushing {action : Action} (ha : m.Accounts ledger host) (hw : m.Warrants action)
    (hpushing : action.Pushing) (evaluate : Expression → MachineM Fault Value) :
    Ends (fun _ => Pushes ledger host action.arity (m.Means action) m) (Starves host action.arity m)
      (perform evaluate action m) := by
  cases action with
  | skip | evaluate | assign => exact hpushing.elim
  | push v =>
    refine (share_ends (ha.excuse v) hw.supports).mono (fun _ m' hp => ?_) fun _ _ hs => hs
    obtain ⟨w, hstack, htree⟩ := hp.pushed
    refine ⟨hp.accounts, hp.confines, w, hstack, fun tree hmean => ?_⟩
    cases hmean with
    | push hv => exact htree tree hv
  | intern text => exact intern_ends ha hw.supports evaluate
  | replace old new => exact replace_ends ha hw.supports.1 hw.supports.2 evaluate
  | compare b => exact compare_ends ha hw.supports b evaluate
  | pack arity => exact pack_ends ha hw.arity_le evaluate
  | quote e => exact quote_ends ha hw.supports evaluate
  | cons head tail => exact cons_ends ha hw.supports evaluate

/-! ## Binding a variable -/

theorem roots_setBinding {index : Nat} {binding : Option Binding} (hlt : index < m.scope.size) :
    { m with scope := m.scope.setBinding index binding }.roots host +
        ((m.scope.binding? index).map Binding.value).toList =
      m.roots host + (binding.map Binding.value).toList := by
  have hvalues := @Scope.values_setBinding m.scope index binding hlt
  simp only [roots]
  calc (m.stack + (m.scope.setBinding index binding).values + host +
        ((m.scope.binding? index).map Binding.value).toList : Multiset Value)
      = m.stack + ((m.scope.setBinding index binding).values +
          ((m.scope.binding? index).map Binding.value).toList) + host := by abel
    _ = m.stack + m.scope.values + host + (binding.map Binding.value).toList := by
        rw [hvalues]
        abel

/-- How a request to bind a variable ends: the variable is bound, or the request is reported and changes nothing. -/
inductive Binds (host : Multiset Value) (m : Machine) (index : Nat) (v : Value) (mutability : Mutability) :
    Value → Machine → Prop where
  | granted {m' : Machine} (haccepts : m.scope.Accepts index mutability)
    (hm : m' = { m with heap := m'.heap, scope := m.scope.setBinding index (some ⟨v, mutability⟩) })
    (hheap : m.heap.Evolves m.texts { w | w ∈ m'.roots host } m'.heap) : Binds host m index v mutability v m'
  | refused (hlt : index < m.scope.size) (hnot : ¬ m.scope.Accepts index mutability) :
    Binds host m index v mutability .error { m with diagnostics := m.diagnostics ++ [.immutableRebind] }

/-- Why a request to bind a variable fails: there is no such variable, or the value cannot be retained. -/
def BindFails (m : Machine) (index : Nat) : ScopeError → Prop
  | .outOfRange i size => i = index ∧ size = m.scope.size ∧ size ≤ index
  | .heap e => index < m.scope.size ∧ e.Exhausted

theorem bindVariable_ends (ha : m.Accounts ledger host) (hlive : m.heap.Live v) (index : Nat) (mutability : Mutability) :
    Ends (fun bound m' => m'.Accounts ledger host ∧ Binds host m index v mutability bound m')
      (fun e m' => m.BindFails index e ∧ m' = m) (bindVariable index v mutability m) := by
  have hretain := (Heap.Accounts.excuse ha v).retain hlive
  refine Ends.bind_get ?_
  rcases m.scope.lookup_cases index with ⟨hlt, hlookup⟩ | ⟨hsize, hlookup⟩
  · rw [hlookup]
    have hroots := @roots_setBinding m host index (some ⟨v, mutability⟩) hlt
    rw [Option.map_some, Option.toList_some, Multiset.coe_singleton, Multiset.add_comm, Multiset.add_comm _ {v},
      Multiset.singleton_add] at hroots
    cases hold : m.scope.binding? index with
    | none =>
      have haccepts : m.scope.Accepts index mutability := by
        simp [Scope.Accepts, hlookup, hold]
      rw [hold, Option.map_none, Option.toList_none, Multiset.coe_nil, zero_add] at hroots
      refine bind_onHeap hretain ?_ ?_
      · rintro - heap₁ ⟨ha₁, hsame, htable⟩
        rw [← hroots] at ha₁
        exact ⟨ha₁, .granted haccepts rfl (hsame.evolves ha.wellFormed htable)⟩
      · rintro e heap' ⟨he, rfl⟩
        exact ⟨⟨hlt, he⟩, rfl⟩
    | some old =>
      by_cases hmutable : mutability = .mutable ∧ old.mutability = .mutable
      · have haccepts : m.scope.Accepts index mutability := by
          simp [Scope.Accepts, hlookup, hold, hmutable]
        rw [hold, Option.map_some, Option.toList_some, Multiset.coe_singleton, Multiset.singleton_add] at hroots
        simp only [if_pos hmutable]
        refine bind_onHeap hretain ?_ ?_
        · rintro - heap₁ ⟨ha₁, hsame, htable⟩
          rw [← hroots] at ha₁
          obtain ⟨heap₂, hrelease, ha₂, hkeeps, hshrinks⟩ := ha₁.release
          have hreleased : Ends (fun _ m' => m' = { m with heap := heap₂ }) (fun e m' => m.BindFails index e ∧ m' = m)
              ((onHeap (Heap.release old.value)).adaptExcept ScopeError.heap { m with heap := heap₁ }) :=
            release_ends hrelease rfl
          refine hreleased.bind ?_
          rintro - m₂ rfl
          rw [hmutable.2, ← hmutable.1]
          exact ⟨ha₂, .granted haccepts rfl ((hsame.evolves ha.wellFormed htable).trans (hshrinks.evolves hkeeps))⟩
        · rintro e heap' ⟨he, rfl⟩
          exact ⟨⟨hlt, he⟩, rfl⟩
      · have hnot : ¬ m.scope.Accepts index mutability := by
          simpa [Scope.Accepts, hlookup, hold] using hmutable
        simp only [if_neg hmutable]
        exact ⟨ha, .refused hlt hnot⟩
  · rw [hlookup]
    exact ⟨⟨rfl, rfl, hsize⟩, rfl⟩

theorem Binds.evolves {bound : Value} {index : Nat} {mutability : Mutability}
    (hb : Binds host m index v mutability bound m') (hfloor : floor <:+ m.stack)
    (hspares : m.scope.Accepts index mutability → index ∉ frozen) : m.Evolves frozen floor host m' := by
  cases hb with
  | granted haccepts hm hheap =>
    have hbinding : ∀ i ∈ frozen, m'.scope.binding? i = m.scope.binding? i := by
      rintro i hi
      rw [hm]
      refine Scope.binding?_setBinding_of_ne ?_
      rintro rfl
      exact hspares haccepts hi
    have hsuffix : floor <:+ m'.stack := by
      rw [hm]
      exact hfloor
    have hheld : m.held frozen floor host ⊆ m'.held frozen floor host := by
      rintro w (hw | hw | ⟨i, hi, b, hb, rfl⟩)
      · exact .inl hw
      · exact .inr (.inl hw)
      · exact .inr (.inr ⟨i, hi, b, (hbinding i hi).trans hb, rfl⟩)
    refine ⟨?_, ?_, ?_, ?_, ?_, hbinding, hsuffix, hheap.mono (hheld.trans (held_subset_roots hsuffix))⟩
    · rw [hm]
    · rw [hm]
    · rw [hm]
    · rw [hm]
    · rw [hm, Scope.size_setBinding]
  | refused => exact .of_heap hfloor (.refl _)

/-- How an assignment ends: with the value bound and back on the stack, with a report, or with a fault. -/
inductive Assigns (host : Multiset Value) (m : Machine) (v : Value) (index : Nat) (mutability : Mutability) :
    EStateM.Result Halt Machine Unit → Prop where
  | bound {m₁ : Machine} (hb : Binds (v ::ₘ host) (m.dropped 1) index v mutability v m₁) (hv : v.isError = false) :
    Assigns host m v index mutability (.ok () { m₁ with stack := v :: m₁.stack })
  | reported {m₁ : Machine} {bound : Value} {heap₂ : Heap}
    (hb : Binds (v ::ₘ host) (m.dropped 1) index v mutability bound m₁) (hbound : bound.isError = true)
    (hw : m₁.heap.WellFormed) (hheap : m₁.heap.Evolves m₁.texts { w | w ∈ m₁.roots host } heap₂) :
    Assigns host m v index mutability (.error .reported { m₁ with heap := heap₂ })
  | failed {e : ScopeError} (he : m.BindFails index e) :
    Assigns host m v index mutability (.error (.fault (.ofScopeError e)) (m.dropped 1))

theorem roots_of_head (hv : m.stack.head? = some v) : m.roots host = (m.dropped 1).roots (v ::ₘ host) := by
  obtain ⟨rest, hstack⟩ := List.head?_eq_some_iff.mp hv
  rw [roots_of_stack hstack, roots_cons, dropped, hstack, List.drop_one, List.tail_cons]

theorem assign_ends (ha : m.Accounts ledger host) (hv : m.stack.head? = some v) (index : Nat) (mutability : Mutability)
    (evaluate : Expression → MachineM Fault Value) :
    Ends (fun a m' => m'.Accounts ledger host ∧ Assigns host m v index mutability (.ok a m'))
      (fun halt m' => (halt = .reported → m'.Accounts ledger host) ∧ Assigns host m v index mutability (.error halt m'))
      (perform evaluate (.assign v index mutability) m) := by
  have ha₁ : (m.dropped 1).Accounts ledger (v ::ₘ host) := by
    rw [Machine.Accounts, ← roots_of_head hv]
    exact ha
  have hlive : m.heap.Live v := ha₁.live v (.inl (mem_roots.mpr (.inr (.inr (Multiset.mem_cons_self v host)))))
  have hbind := bindVariable_ends ha₁ hlive index mutability
  refine Ends.bind_modify (Ends.bind (Ends.adaptExcept (hbind.mono (fun _ _ hgood => hgood) ?_)) ?_)
  · rintro e m₁ ⟨he, rfl⟩
    exact ⟨fun hreported => (nomatch hreported), .failed he⟩
  · rintro bound m₁ ⟨ha₂, hb⟩
    cases hbound : bound.isError with
    | true =>
      rw [Machine.Accounts, roots_cons] at ha₂
      obtain ⟨heap₂, hrelease, ha₃, hkeeps, hshrinks⟩ := ha₂.release
      have hreleased : Ends (fun _ m' => m' = { m₁ with heap := heap₂ })
          (fun halt m' => (halt = .reported → m'.Accounts ledger host) ∧
            Assigns host m v index mutability (.error halt m')) (faulting (Heap.release v) m₁) :=
        release_ends hrelease rfl
      rw [if_pos rfl]
      refine hreleased.bind ?_
      rintro - m₂ rfl
      exact ⟨fun _ => ha₃, .reported hb hbound ha₂.wellFormed (hshrinks.evolves hkeeps)⟩
    | false =>
      have hvalue : bound = v := by
        cases hb with
        | granted => rfl
        | refused => exact nomatch hbound
      subst hvalue
      rw [if_neg Bool.false_ne_true]
      refine ⟨?_, .bound hb hbound⟩
      rw [Machine.Accounts, roots_cons] at ha₂
      rw [Machine.Accounts, roots_of_stack rfl]
      exact ha₂

end Machine

end RefMachine
