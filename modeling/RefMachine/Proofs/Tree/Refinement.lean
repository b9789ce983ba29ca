import RefMachine.Proofs.Machine.Evaluate
import RefMachine.Proofs.Tree.Mirror

/-!
# Evaluation refines evaluation on trees

A machine and its mirror stay each other's mirror while both evaluate an expression: through every instruction
(`step_mirrors`), a run of them (`runCode_mirrors`), a frame (`enter_mirrors`) and the expressions inside each other
(`evaluateWithin_mirrors`). They yield the same, report the same and end with the same faults. The machine of trees
knows no heap that comes to its end, so from there on it is on its own.

What has to hold besides is that the machine accounts for its references, since otherwise a value might be released that
is still in use, and that no two texts share a hash (`Paired`).
-/

namespace RefMachine

namespace Machine

variable {m m' m₀ : Machine} {t : TreeMachine} {ledger : Ledger} {host : Multiset Value} {frozen : Set Nat}
  {floor : List Value} {v : Value} {x : Tree} {evaluate : Expression → MachineM Fault Value}
  {evaluate' : Expression → EStateM Fault TreeMachine Tree}

/-- The end of some instructions and the end of the same instructions in the mirror. -/
inductive RunMirrors : EStateM.Result Halt Machine Unit → EStateM.Result Halt TreeMachine Unit → Prop where
  | ok {m : Machine} {t : TreeMachine} (hm : m.Mirrors t) : RunMirrors (.ok () m) (.ok () t)
  | error (halt : Halt) {m : Machine} {t : TreeMachine} (hm : m.Mirrors t) :
    RunMirrors (.error halt m) (.error halt.erase t)
  | exhausted (e : HeapError) (m : Machine) (r : EStateM.Result Halt TreeMachine Unit) :
    RunMirrors (.error (.fault (.heap e)) m) r

/-- The end of an evaluation and the end of the same evaluation in the mirror. -/
inductive YieldMirrors : EStateM.Result Fault Machine Value → EStateM.Result Fault TreeMachine Tree → Prop where
  | ok {m : Machine} {t : TreeMachine} {v : Value} {x : Tree} (hm : m.Mirrors t) (hv : m.heap.Unfolds v x) :
    YieldMirrors (.ok v m) (.ok x t)
  | error (f : Fault) {m : Machine} {t : TreeMachine} (hm : m.Mirrors t) : YieldMirrors (.error f m) (.error f t)
  | exhausted (e : HeapError) (m : Machine) (r : EStateM.Result Fault TreeMachine Tree) :
    YieldMirrors (.error (.heap e) m) r

/-- A machine and its mirror, ready to go on together. -/
structure Paired (ledger : Ledger) (host : Multiset Value) (m : Machine) (t : TreeMachine) : Prop where
  accounts : m.Accounts ledger host
  mirrors : m.Mirrors t
  apart : m.HashesApart

theorem HashesApart.of_shared (hapart : m.HashesApart) (htexts : m'.texts = m.texts)
    (hshared : m'.heap.sharedTexts ⊆ m.texts ∪ m.heap.sharedTexts) : m'.HashesApart := by
  rw [HashesApart, htexts]
  exact Set.InjOn.mono (Set.union_subset Set.subset_union_left hshared) hapart

/-! ## One instruction -/

namespace Mirrors

theorem mapDepth (hm : m.Mirrors t) (f : Nat → Nat) :
    { m with depth := f m.depth }.Mirrors { t with depth := f t.depth } :=
  ⟨hm.stack, hm.size_eq, hm.binding, hm.diagnostics_eq, hm.literals_eq, hm.base_eq, congrArg f hm.depth_eq,
    hm.limits_eq⟩

theorem accepts_iff (hm : m.Mirrors t) {index : Nat} (hlt : index < m.scope.size) (mutability : Mutability) :
    t.accepts index mutability = true ↔ m.scope.Accepts index mutability := by
  have hbinding := hm.binding index
  have hlookup : m.scope.lookup index = .ok (m.scope.binding? index) :=
    (m.scope.lookup_cases index).elim And.right fun hge => absurd hlt (Nat.not_lt_of_le hge.1)
  rw [TreeMachine.accepts, Scope.Accepts, hlookup]
  generalize m.scope.binding? index = old, t.binding? index = new at hbinding ⊢
  cases hbinding with
  | none => exact iff_of_true rfl trivial
  | some hrel =>
    dsimp only
    rw [hrel.2, decide_eq_true_iff]

theorem setBinding (hm : m.Mirrors t) (hv : m.heap.Unfolds v x) {index : Nat} (hlt : index < m.scope.size)
    (mutability : Mutability) :
    { m with scope := m.scope.setBinding index (some ⟨v, mutability⟩) }.Mirrors
      { t with scope := t.scope.set index (some ⟨x, mutability⟩) } := by
  refine ⟨hm.stack, ?_, fun i => ?_, hm.diagnostics_eq, hm.literals_eq, hm.base_eq, hm.depth_eq, hm.limits_eq⟩
  · rw [List.length_set, Scope.size_setBinding, hm.size_eq]
  · by_cases hi : i = index
    · subst hi
      have hnew : (t.scope.set i (some ⟨x, mutability⟩))[i]? = some (some ⟨x, mutability⟩) :=
        List.getElem?_set_self (hm.size_eq ▸ hlt)
      rw [Scope.binding?_setBinding_self hlt, TreeMachine.binding?, hnew]
      exact .some ⟨hv, rfl⟩
    · rw [Scope.binding?_setBinding_of_ne hi, TreeMachine.binding?, List.getElem?_set_ne (Ne.symm hi)]
      exact hm.binding i

theorem bindVariable {bound : Value} {index : Nat} {mutability : Mutability} (hm : m.Mirrors t)
    (hb : Binds host m index v mutability bound m') (hw : m.heap.WellFormed) (hv : m.heap.Unfolds v x)
    (hheld : v ∈ host) :
    index < m.scope.size ∧ m'.Mirrors (t.bindVariable index x mutability).2 ∧
      m'.heap.Unfolds bound (t.bindVariable index x mutability).1 := by
  cases hb with
  | granted haccepts hm' hheap =>
    have hlt : index < m.scope.size := by
      rcases m.scope.lookup_cases index with ⟨hlt, -⟩ | ⟨-, hlookup⟩
      · exact hlt
      · rw [Scope.Accepts, hlookup] at haccepts
        exact haccepts.elim
    rw [TreeMachine.bindVariable, if_pos ((hm.accepts_iff hlt mutability).mpr haccepts)]
    -- The binding is mirrored in the old heap first, which still holds what the variable held before.
    generalize m'.heap = heap' at hm' hheap
    subst hm'
    have hset := hm.setBinding hv hlt mutability
    refine ⟨hlt, @of_keeps _ _ host 0 heap' hset hw hheap.keeps, hv.of_keeps hw hheap.keeps (.of_mem ?_)⟩
    exact mem_roots.mpr (.inr (.inr hheld))
  | refused hlt hnot =>
    rw [TreeMachine.bindVariable, if_neg (mt (hm.accepts_iff hlt mutability).mp hnot)]
    exact ⟨hlt, hm.report .immutableRebind, .atom rfl⟩

end Mirrors

theorem Paired.assign (hp : Paired ledger host m t) (hhead : m.stack.head? = some v) (hv : m.heap.Unfolds v x)
    (index : Nat) (mutability : Mutability) :
    RunMirrors (perform evaluate (.assign v index mutability) m)
      (TreeMachine.assign x index mutability (t.dropped 1)) := by
  have hwell := hp.accounts.wellFormed
  have hdropped : (m.dropped 1).Mirrors (t.dropped 1) := @Mirrors.of_keeps _ _ host 1 _ hp.mirrors hwell fun _ _ _ => rfl
  have hends := assign_ends hp.accounts hhead index mutability evaluate
  unfold TreeMachine.assign
  rw [hdropped.size_eq]
  cases hrun : perform evaluate (.assign v index mutability) m with
  | ok a m' =>
    obtain ⟨-, hassigns⟩ := hends.of_ok hrun
    cases hassigns with
    | bound hb herror =>
      obtain ⟨hlt, hm₁, hbound⟩ := hdropped.bindVariable hb hwell hv (Multiset.mem_cons_self v host)
      rw [if_pos hlt]
      dsimp only
      rw [← hbound.isError_eq, herror, if_neg Bool.false_ne_true]
      exact .ok (hm₁.push hbound)
  | error halt m' =>
    obtain ⟨-, hassigns⟩ := hends.of_error hrun
    cases hassigns with
    | reported hb herror hwell₁ hheap =>
      obtain ⟨hlt, hm₁, hbound⟩ := hdropped.bindVariable hb hwell hv (Multiset.mem_cons_self v host)
      rw [if_pos hlt]
      dsimp only
      rw [← hbound.isError_eq, herror, if_pos rfl]
      exact .error .reported (@Mirrors.of_keeps _ _ host 0 _ hm₁ hwell₁ hheap.keeps)
    | @failed e hfails =>
      cases e with
      | outOfRange i size =>
        obtain ⟨rfl, rfl, hsize⟩ := hfails
        rw [if_neg (Nat.not_lt_of_le hsize)]
        exact .error (.fault (.variableOutOfRange i m.scope.size)) hdropped
      | heap e => exact .exhausted e _ _

theorem perform_mirrors {action : Action} {move : Move} (hp : Paired ledger host m t) (hw : m.Warrants action)
    (hmove : m.Corresponds action move)
    (hev : ∀ handle e heap₁ t₁, action = .evaluate handle e → Heap.release handle m.heap = .ok () heap₁ →
      Paired ledger host (m.descended heap₁) t₁ →
      YieldMirrors (evaluate e (m.descended heap₁)) (evaluate' e t₁)) :
    RunMirrors (perform evaluate action m) (TreeMachine.perform evaluate' move t) := by
  have hwell := hp.accounts.wellFormed
  cases hmove with
  | skip => exact .ok hp.mirrors
  | put hpushing hmeans =>
    have hends := perform_pushing hp.accounts hw hpushing evaluate
    cases hrun : perform evaluate action m with
    | ok a m' =>
      obtain ⟨-, hconfines, v, hstack, htree⟩ := hends.of_ok hrun
      have hmirrors := (hp.mirrors.of_keeps hwell hconfines.heap.keeps).push (htree _ hmeans)
      rw [hconfines.machine_eq, hstack]
      exact .ok hmirrors
    | error halt m' =>
      obtain ⟨⟨e, rfl, -⟩, -, -⟩ := hends.of_error hrun
      exact .exhausted e m' _
  | evaluate handle e =>
    obtain ⟨hhead, -, -⟩ := hw.supports
    have ha := hp.accounts
    rw [Machine.Accounts, roots_of_head hhead, roots_cons] at ha
    obtain ⟨heap₁, hrelease, ha₁, hkeeps, hshrinks⟩ := ha.release
    have hdropped := hp.mirrors.of_keeps hwell hkeeps
    have hdescended : Paired ledger host (m.descended heap₁) t.descended :=
      ⟨ha₁, hdropped.mapDepth (· + 1), hp.apart.of_shared rfl (hshrinks.evolves hkeeps).shared⟩
    have hyield := hev handle e heap₁ _ rfl hrelease hdescended
    rw [perform_evaluate hrelease]
    change RunMirrors _ (TreeMachine.ascend (evaluate' e t.descended))
    generalize evaluate e (m.descended heap₁) = r, evaluate' e t.descended = r' at hyield ⊢
    cases hyield with
    | ok hm₂ hv =>
      dsimp only [TreeMachine.ascend]
      rw [hv.isError_eq]
      split_ifs
      · exact .error (.diagnostic .nestedEvaluation) (hm₂.mapDepth (· - 1))
      · exact .ok ((hm₂.mapDepth (· - 1)).push hv)
    | error f hm₂ => exact .error (.fault f) (hm₂.mapDepth (· - 1))
    | exhausted e m₂ r => exact .exhausted e _ _
  | assign hv index mutability => exact hp.assign hw.supports hv index mutability

theorem step_mirrors {i : Instruction} (hp : Paired ledger host m t) (hquotes : m.QuotesNoLiteral i)
    (hev : ∀ handle e heap₁ t₁, m.resolve i = .ok (.evaluate handle e) → Heap.release handle m.heap = .ok () heap₁ →
      Paired ledger host (m.descended heap₁) t₁ →
      YieldMirrors (evaluate e (m.descended heap₁)) (evaluate' e t₁)) :
    RunMirrors (step evaluate i m) (TreeMachine.step evaluate' i t) := by
  have hpasses := resolve_passes hp.accounts i
  have hmatches := hp.mirrors.resolve_matches hp.apart hquotes
  unfold TreeMachine.step
  rw [step_apply, Carrier.machine_eq]
  cases hresolve : m.resolve i with
  | ok action =>
    cases hmove : t.resolve i with
    | ok move =>
      rw [hresolve] at hpasses hmatches
      rw [hmove] at hmatches
      refine perform_mirrors hp hpasses hmatches ?_
      rintro handle e heap₁ t₁ rfl
      exact hev handle e heap₁ t₁ hresolve
    | error halt' =>
      rw [hresolve, hmove] at hmatches
      exact hmatches.elim
  | error halt =>
    cases hmove : t.resolve i with
    | ok move =>
      rw [hresolve, hmove] at hmatches
      exact hmatches.elim
    | error halt' =>
      rw [hresolve, hmove] at hmatches
      cases hmatches
      exact .error halt hp.mirrors

/-- `runCode` on a machine is mirrored by `TreeMachine.runCode` on its mirror, if the nested evaluations are. -/
theorem runCode_mirrors {code : List Instruction} (hp : Paired ledger host m t) (hbase : m.base = floor.length)
    (hfloor : floor <:+ m.stack)
    (hends : ∀ e m₁, m₁.Accounts ledger host → Evaluates ledger ∅ host m₁ (evaluate e m₁))
    (hquotes : ∀ i m₁, Comes evaluate code m i m₁ → m₁.QuotesNoLiteral i)
    (hev : ∀ i m₁ handle e heap₁ t₁, Comes evaluate code m i m₁ → m₁.resolve i = .ok (.evaluate handle e) →
      Heap.release handle m₁.heap = .ok () heap₁ → Paired ledger host (m₁.descended heap₁) t₁ →
      YieldMirrors (evaluate e (m₁.descended heap₁)) (evaluate' e t₁)) :
    RunMirrors (runCode evaluate code m) (TreeMachine.runCode evaluate' code t) := by
  -- The accounts carry the induction: without them the next instruction might find a slot released that it needs.
  induction code generalizing m t with
  | nil => exact .ok hp.mirrors
  | cons i rest ih =>
    have hstep := step_mirrors hp (hquotes i m (.here i rest m)) fun handle e heap₁ t₁ =>
      hev i m handle e heap₁ t₁ (.here i rest m)
    have hsteps := step_ends hp.accounts hbase hfloor (m.spares_empty i) fun _ e _ _ _ ha => hends e _ ha
    change RunMirrors (EStateM.bind (step evaluate i) (fun _ => runCode evaluate rest) m) _
    unfold EStateM.bind TreeMachine.runCode
    generalize hrun : step evaluate i m = r, TreeMachine.step evaluate' i t = r' at hstep ⊢
    cases hstep with
    | @ok m₁ t₁ hm₁ =>
      obtain ⟨ha₁, he⟩ := hsteps.of_ok hrun
      refine ih ⟨ha₁, hm₁, hp.apart.of_shared he.texts_eq he.heap.shared⟩ (he.base_eq.trans hbase) he.suffix ?_ ?_
      · exact fun j m₂ hcomes => hquotes j m₂ (.next hrun hcomes)
      · exact fun j m₂ handle e heap₂ t₂ hcomes => hev j m₂ handle e heap₂ t₂ (.next hrun hcomes)
    | error halt hm₁ => exact .error halt hm₁
    | exhausted e m₁ r => exact .exhausted e m₁ _

/-! ## Leaving a frame -/

theorem Leaves.mirrors {reports : List Diagnostic} (hl : Leaves ledger host floor m v reports m') (hm : m.Mirrors t)
    (hw : m.heap.WellFormed) (hfloor : floor <:+ m.stack) :
    m'.Mirrors (t.unwound floor.length (reports.map Diagnostic.erase)) := by
  have hdrop := drop_of_suffix hfloor
  have hkeeps : m.heap.Keeps m'.heap { w | w ∈ (m.dropped (m.stack.length - floor.length)).roots host } := by
    rw [dropped, hdrop]
    exact hl.heap.keeps
  have hmirrors := hm.of_keeps hw hkeeps
  rw [hl.machine_eq]
  refine ⟨?_, hmirrors.size_eq, hmirrors.binding, ?_, hm.literals_eq, hm.base_eq, hm.depth_eq, hm.limits_eq⟩
  · have hstack : List.Forall₂ m'.heap.Unfolds (m.stack.drop (m.stack.length - floor.length))
        (t.stack.drop (m.stack.length - floor.length)) := hmirrors.stack
    rw [hdrop, hm.stack.length_eq] at hstack
    exact hstack
  · rw [List.map_append, ← hm.diagnostics_eq]

theorem takeResult_mirrors {reports : List Diagnostic} (hm : m.Mirrors t) (hv : Verdict floor (.ok () m) v reports) :
    ∃ x, TreeMachine.takeResult floor.length t = .ok x (t.unwound floor.length (reports.map Diagnostic.erase)) ∧
      m.heap.Unfolds v x := by
  have hlength := hm.stack.length_eq
  have hframe := hm.stack
  unfold TreeMachine.takeResult
  cases hv with
  | nothing hstack =>
    have htake : t.stack.take (t.stack.length - floor.length) = [] := by
      rw [← hlength, hstack, Nat.sub_self, List.take_zero]
    rw [htake]
    exact ⟨.error, rfl, .atom rfl⟩
  | result hstack =>
    rw [hstack] at hframe
    obtain ⟨x, rest, hx, hrest, hstack'⟩ := List.forall₂_cons_left_iff.mp hframe
    have htake : t.stack.take (t.stack.length - floor.length) = [x] := by
      rw [hstack', hrest.length_eq, List.length_cons, Nat.add_sub_cancel_left]
      rfl
    rw [htake]
    exact ⟨x, rfl, hx⟩
  | @imbalance _ w u above hstack =>
    rw [hstack] at hframe
    obtain ⟨x, _, -, hrest, hstack'⟩ := List.forall₂_cons_left_iff.mp hframe
    obtain ⟨y, rest, -, hrest', rfl⟩ := List.forall₂_cons_left_iff.mp hrest
    have hsize : (x :: y :: rest).length - floor.length = above.length + 2 := by
      have hlength' : (above ++ floor).length = rest.length := hrest'.length_eq
      rw [List.length_append] at hlength'
      simp only [List.length_cons]
      omega
    have htake : t.stack.take (t.stack.length - floor.length) = x :: y :: rest.take above.length := by
      rw [hstack', hsize]
      rfl
    rw [htake, ← hlength]
    exact ⟨.error, rfl, .atom rfl⟩

theorem leave_mirrors {r : EStateM.Result Halt Machine Unit} {r' : EStateM.Result Halt TreeMachine Unit}
    (hrun : RunMirrors r r')
    (hends : Ends (fun _ => Continues ledger frozen floor host m₀) (Stops ledger frozen floor host m₀) r) :
    YieldMirrors (leave floor.length r) (TreeMachine.leave floor.length r') := by
  -- A fault is passed on as it is; in all other cases the frame is taken down.
  by_cases hfault : ∃ f m₁, r = .error (.fault f) m₁
  · obtain ⟨f, m₁, rfl⟩ := hfault
    cases hrun with
    | error _ hm => exact .error f hm
    | exhausted e m₁ r' => exact .exhausted e m₁ _
  · have hr : ∀ f m₁, r ≠ .error (.fault f) m₁ := fun f m₁ heq => hfault ⟨f, m₁, heq⟩
    obtain ⟨ha, he⟩ := continues_endState hends hr
    have hwell := ha.wellFormed
    have hsuffix := he.suffix
    obtain ⟨v, reports, m', hleave, hverdict, hleaves⟩ := leave_eq hr ha hsuffix
    rw [hleave]
    cases hrun with
    | @ok m t hm =>
      obtain ⟨x, htake, hx⟩ := takeResult_mirrors hm hverdict
      change YieldMirrors _ (TreeMachine.takeResult floor.length t)
      rw [htake]
      exact .ok (hleaves.mirrors hm hwell hsuffix) (hleaves.unfolds x hx)
    | error halt hm =>
      have hmirrors := hleaves.mirrors hm hwell hsuffix
      cases hverdict with
      | diagnostic => exact .ok hmirrors (.atom rfl)
      | reported => exact .ok hmirrors (.atom rfl)
    | exhausted e m₁ r' => exact (hfault ⟨_, _, rfl⟩).elim

/-! ## Whole evaluations -/

theorem Mirrors.withBase (hm : m.Mirrors t) (base : Nat) : { m with base := base }.Mirrors { t with base := base } :=
  ⟨hm.stack, hm.size_eq, hm.binding, hm.diagnostics_eq, hm.literals_eq, rfl, hm.depth_eq, hm.limits_eq⟩

theorem YieldMirrors.withBase {r : EStateM.Result Fault Machine Value} {r' : EStateM.Result Fault TreeMachine Tree}
    (hyield : YieldMirrors r r') (base : Nat) :
    YieldMirrors (afterwards (fun m => { m with base := base }) r)
      (TreeMachine.afterwards (fun t => { t with base := base }) r') := by
  cases hyield with
  | ok hm hv => exact .ok (hm.withBase base) hv
  | error f hm => exact .error f (hm.withBase base)
  | exhausted e m r' => exact .exhausted e _ _

theorem enter_mirrors {e : Expression} (hp : Paired ledger host m t)
    (hends : ∀ e m₁, m₁.Accounts ledger host → Evaluates ledger ∅ host m₁ (evaluate e m₁))
    (hquotes : ∀ i m₁, Comes evaluate e.code { m with base := m.stack.length } i m₁ → m₁.QuotesNoLiteral i)
    (hev : ∀ i m₁ handle e' heap₁ t₁, Comes evaluate e.code { m with base := m.stack.length } i m₁ →
      m₁.resolve i = .ok (.evaluate handle e') → Heap.release handle m₁.heap = .ok () heap₁ →
      Paired ledger host (m₁.descended heap₁) t₁ → YieldMirrors (evaluate e' (m₁.descended heap₁)) (evaluate' e' t₁)) :
    YieldMirrors (enter evaluate e m) (TreeMachine.enter evaluate' e t) := by
  have hlength := hp.mirrors.stack.length_eq
  unfold TreeMachine.enter
  cases hcode : e.code.isEmpty with
  | true =>
    rw [enter_of_isEmpty hcode, if_pos rfl]
    exact .ok hp.mirrors (.atom rfl)
  | false =>
    have hbased : Paired ledger host { m with base := m.stack.length } { t with base := t.stack.length } :=
      ⟨hp.accounts, hlength ▸ hp.mirrors.withBase m.stack.length, hp.apart⟩
    have hrun := runCode_mirrors hbased rfl (List.suffix_refl _) hends hquotes hev
    have hruns := @runCode_ends { m with base := m.stack.length } ledger host ∅ m.stack evaluate e.code hp.accounts rfl
      (List.suffix_refl _) (fun i m₁ _ => m₁.spares_empty i) fun _ _ _ e' _ _ _ _ ha => hends e' _ ha
    have hyield := leave_mirrors hrun hruns
    rw [enter_of_code hcode, if_neg Bool.false_ne_true, hp.mirrors.base_eq, ← hlength]
    rw [← hlength] at hyield
    exact hyield.withBase m.base

theorem evaluateWithin_mirrors {room : Nat} {e : Expression} (hp : Paired ledger host m t)
    (hquotes : ∀ i m', VisitsWithin room e m i m' → m'.QuotesNoLiteral i) :
    YieldMirrors (evaluateWithin room e m) (TreeMachine.evaluateWithin room e t) := by
  induction room generalizing e m t with
  | zero =>
    rw [evaluateWithin_eq]
    refine enter_mirrors hp (fun e' m₁ => innerWithin_ends 0 e') (fun i m₁ hcomes => hquotes i m₁ (.own hcomes)) ?_
    intro i m₁ handle e' heap₁ t₁ _ _ _ hp₁
    exact .ok hp₁.mirrors (.atom rfl)
  | succ room ih =>
    rw [evaluateWithin_eq]
    refine enter_mirrors hp (fun e' m₁ => innerWithin_ends (room + 1) e')
      (fun i m₁ hcomes => hquotes i m₁ (.own hcomes)) ?_
    intro i m₁ handle e' heap₁ t₁ hcomes hresolve hrelease hp₁
    exact ih hp₁ fun j m₂ hvisits => hquotes j m₂ (.nested hcomes hresolve hrelease hvisits)

end Machine

/-! ## The refinement -/

/-- **Refinement by trees.** A balanced machine with an acyclic heap, in which no two texts share a hash, has one
mirror. As long as no expression is made that loads literals, evaluating in both yields the same value, the same
variables and the same diagnostics, or the same fault, unless the heap comes to its end. -/
theorem evaluation_refines_trees {m : Machine} {host : Multiset Value} {e : Expression} (hb : m.Balanced host)
    (hacyclic : m.heap.Acyclic) (hapart : m.HashesApart)
    (hquotes : ∀ i m', Machine.Visits e m i m' → m'.QuotesNoLiteral i) :
    (∃! t, m.Mirrors t) ∧ ∀ t, m.Mirrors t →
      (∃ v m' x t', Machine.evaluate e m = .ok v m' ∧ TreeMachine.evaluate e t = .ok x t' ∧
        m'.heap.Unfolds v x ∧ m'.Mirrors t') ∨
      (∃ f m' t', Machine.evaluate e m = .error f m' ∧ TreeMachine.evaluate e t = .error f t' ∧ m'.Mirrors t' ∧
        ((∃ id, f = .unknownLiteral id) ∨ ∃ index size, f = .variableOutOfRange index size)) ∨
      ∃ he m', Machine.evaluate e m = .error (.heap he) m' ∧ he.Exhausted := by
  have ha := Machine.balanced_iff.mp hb
  constructor
  · obtain ⟨t, hm⟩ := ha.exists_mirrors hacyclic
    exact ⟨t, hm, fun t' hm' => hm'.functional hm⟩
  · intro t hm
    have hyield : Machine.YieldMirrors (Machine.evaluate e m) (TreeMachine.evaluate e t) := by
      unfold Machine.evaluate TreeMachine.evaluate
      rw [hm.limits_eq, hm.depth_eq]
      exact Machine.evaluateWithin_mirrors ⟨ha, hm, hapart⟩ hquotes
    have hends := Machine.evaluate_ends_free ha e
    generalize Machine.evaluate e m = r, TreeMachine.evaluate e t = r' at hyield hends ⊢
    cases hyield with
    | ok hm' hv => exact .inl ⟨_, _, _, _, rfl, rfl, hv, hm'⟩
    | @error f m' t' hm' =>
      have hadmits := hends.admits
      cases f with
      | stackUnderflow op => exact hadmits.elim
      | unknownLiteral id => exact .inr (.inl ⟨_, _, _, rfl, rfl, hm', .inl ⟨id, rfl⟩⟩)
      | variableOutOfRange index size => exact .inr (.inl ⟨_, _, _, rfl, rfl, hm', .inr ⟨index, size, rfl⟩⟩)
      | heap he => exact .inr (.inr ⟨he, m', rfl, hadmits⟩)
    | exhausted he m' r' => exact .inr (.inr ⟨he, m', rfl, hends.admits⟩)

/-- A new machine with one literal that evaluates an expression for a tuple of its text. -/
theorem evaluation_refines_trees_tuple : ∃ v m' t',
    Machine.evaluate ⟨⟨0⟩, [.loadString 0, .newTuple 1]⟩ { literals := ⟨Registry.empty.push "a"⟩ } = .ok v m' ∧
      TreeMachine.evaluate ⟨⟨0⟩, [.loadString 0, .newTuple 1]⟩ { literals := ⟨Registry.empty.push "a"⟩ } =
        .ok (.tuple [.string "a"]) t' ∧
      m'.heap.Unfolds v (.tuple [.string "a"]) ∧ m'.Mirrors t' := by
  have htexts : ∀ text ∈ Machine.texts { literals := ⟨Registry.empty.push "a"⟩ }, text = "a" := by
    rintro text ⟨id, hid⟩
    rw [Literals.text?, Registry.get?_push] at hid
    split_ifs at hid
    · exact (Option.some.inj hid).symm
    · cases hid
  have hapart : Machine.HashesApart { literals := ⟨Registry.empty.push "a"⟩ } := by
    rintro text (htext | ⟨_, hentry, -⟩) text' (htext' | ⟨_, hentry', -⟩) -
    · rw [htexts text htext, htexts text' htext']
    · exact absurd hentry' List.not_mem_nil
    · exact absurd hentry List.not_mem_nil
    · exact absurd hentry List.not_mem_nil
  have hactions : ∀ i ∈ [Instruction.loadString 0, .newTuple 1], ∀ (m : Machine) action, m.resolve i = .ok action →
      (∀ e, action ≠ .quote e) ∧ ∀ handle e, action ≠ .evaluate handle e := by
    intro i hi m action hresolve
    simp only [List.mem_cons, List.not_mem_nil, or_false] at hi
    rcases hi with rfl | rfl
    · change m.resolveOperation .loadString (.pushLiteral 0) = _ at hresolve
      unfold Machine.resolveOperation at hresolve
      cases htext : m.literals.text? 0 with
      | none =>
        simp only [htext] at hresolve
        cases hresolve
      | some text =>
        simp only [htext] at hresolve
        cases hresolve
        simp
    · change (if m.frame.length < 1 then _ else _) = _ at hresolve
      split_ifs at hresolve
      · cases hresolve
      · cases hresolve
        simp
  obtain ⟨v₀, m₀, t₀, hrun, hrun'⟩ : ∃ v m' t',
      Machine.evaluate ⟨⟨0⟩, [.loadString 0, .newTuple 1]⟩ { literals := ⟨Registry.empty.push "a"⟩ } = .ok v m' ∧
        TreeMachine.evaluate ⟨⟨0⟩, [.loadString 0, .newTuple 1]⟩ { literals := ⟨Registry.empty.push "a"⟩ } =
          .ok (.tuple [.string "a"]) t' := ⟨_, _, _, rfl, rfl⟩
  have hmirrors : Machine.Mirrors { literals := ⟨Registry.empty.push "a"⟩ } { literals := ⟨Registry.empty.push "a"⟩ } :=
    ⟨.nil, rfl, fun _ => .none, rfl, rfl, rfl, rfl, rfl⟩
  obtain ⟨-, hrefines⟩ := @evaluation_refines_trees _ _ ⟨⟨0⟩, [.loadString 0, .newTuple 1]⟩
    (Machine.balanced_new ⟨Registry.empty.push "a"⟩ {}) Heap.acyclic_empty hapart (by
      rintro i m₁ (hcomes | ⟨hcomes, hresolve, -, -⟩)
      · intro e hresolve
        exact ((hactions i hcomes.mem m₁ _ hresolve).1 e rfl).elim
      · exact ((hactions _ hcomes.mem _ _ hresolve).2 _ _ rfl).elim)
  rcases hrefines _ hmirrors with ⟨v, m', x, t', hm, ht, hv, hmirrors'⟩ | ⟨f, m', t', hm, -⟩ | ⟨he, m', hm, -⟩
  · cases hrun'.symm.trans ht
    exact ⟨v, m', t₀, hm, hrun', hv, hmirrors'⟩
  · cases hrun.symm.trans hm
  · cases hrun.symm.trans hm

end RefMachine
