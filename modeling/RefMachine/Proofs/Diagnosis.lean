import RefMachine.Proofs.Frames
import RefMachine.Proofs.Machine.Clean
import RefMachine.Proofs.Session

/-!
# What an evaluation reports

In a machine whose references are safe and that stores no error value, an evaluation reports nothing unless it yields
the error value. Then some expression failed, at some level of nesting, and reported the one thing that is wrong with
it, or nothing if it has no instructions; and every expression around it reported that a nested evaluation failed, and
nothing else (`evaluation_diagnosed`).

One instruction (`step_stopped`) and a run of them (`runCode_stopped`) either report nothing or stop the expression, and
what stopped it is what it reports when it is left (`evaluate_diagnoses`, by induction on the room for nested
expressions).
-/

namespace RefMachine

namespace Machine

variable {m m' : Machine} {ledger : Ledger} {host : Multiset Value} {floor : List Value} {e e' : Expression} {k : Nat}

/-! ## Levels of nesting -/

/-- Evaluating the expression `e` in the machine `m` comes to evaluating `e'` in `m'`, which is `k` levels down. -/
inductive Descends : (k : Nat) → (e : Expression) → (m : Machine) → (e' : Expression) → (m' : Machine) → Prop where
  | here (e : Expression) (m : Machine) : Descends 0 e m e m
  | deeper {k : Nat} {e e₁ e' : Expression} {m m₁ m' : Machine} {i : Instruction} {handle : Value} {heap₁ : Heap}
    (hcomes : Comes evaluate e.code { m with base := m.stack.length } i m₁)
    (hresolve : m₁.resolve i = .ok (.evaluate handle e₁)) (hrelease : Heap.release handle m₁.heap = .ok () heap₁)
    (hrest : Descends k e₁ (m₁.descended heap₁) e' m') : Descends (k + 1) e m e' m'

theorem Descends.depth_eq (hdescends : Descends k e m e' m') : m'.depth = m.depth + k ∧ m'.limits = m.limits := by
  induction hdescends with
  | here => exact ⟨rfl, rfl⟩
  | @deeper k e e₁ e' m m₁ m' i handle heap₁ hcomes hresolve hrelease hrest ih =>
    have hrests := hcomes.rests rfl (List.suffix_refl _)
    have hdepth₁ : m₁.depth = m.depth := hrests.depth_eq
    have hdepth' : m'.depth = m₁.depth + 1 + k := ih.1
    exact ⟨by omega, ih.2.trans hrests.limits_eq⟩

theorem Descends.depth_le (hdescends : Descends k e m e' m') (hk : 0 < k) : m'.depth ≤ m'.limits.maxDepth := by
  induction hdescends with
  | here => exact absurd hk (Nat.lt_irrefl 0)
  | @deeper k e e₁ e' m m₁ m' i handle heap₁ hcomes hresolve hrelease hrest ih =>
    by_cases hk : 0 < k
    · exact ih hk
    · have hdraws := m₁.resolve_draws i
      rw [hresolve] at hdraws
      obtain rfl : k = 0 := by omega
      cases hrest
      exact hdraws.depth_lt trivial

/-! ## What is reported -/

/-- What an expression reports that is itself at fault: one thing, or nothing if it has no instructions. -/
inductive Blames (e : Expression) : List Diagnostic → Prop where
  | empty (hcode : e.code = []) : Blames e []
  | own {d : Diagnostic} (hcode : e.code ≠ []) (hd : d ≠ .nestedEvaluation) : Blames e [d]

/-- Evaluating the expression `e` failed at an expression `k` levels down, and these are the reports. -/
def Fails (k : Nat) (e : Expression) (m : Machine) (reports : List Diagnostic) : Prop :=
  ∃ e' m₁ m₂ own, Descends k e m e' m₁ ∧ m₁.diagnostics = m.diagnostics ∧ Blames e' own ∧
    evaluate e' m₁ = .ok .error m₂ ∧ m₂.diagnostics = m.diagnostics ++ own ∧
    reports = own ++ List.replicate k .nestedEvaluation

/-- An evaluation ended with nothing reported, or it yielded the error value and reported why. -/
def Diagnoses (e : Expression) (m : Machine) : EStateM.Result Fault Machine Value → Prop :=
  Ends (fun v m' => v ≠ .error ∧ m'.diagnostics = m.diagnostics ∨
      v = .error ∧ ∃ k reports, Fails k e m reports ∧ m'.diagnostics = m.diagnostics ++ reports)
    fun _ m' => m'.diagnostics = m.diagnostics

/-- How the instructions of an expression may end, and what was reported by then. -/
inductive Stopped (code : List Instruction) (m : Machine) : EStateM.Result Halt Machine Unit → Prop where
  | finished {m' : Machine} (hm' : m'.diagnostics = m.diagnostics) : Stopped code m (.ok () m')
  | fault {f : Fault} {m' : Machine} (hm' : m'.diagnostics = m.diagnostics) : Stopped code m (.error (.fault f) m')
  | own {d : Diagnostic} {m' : Machine} (hd : d ≠ .nestedEvaluation) (hm' : m'.diagnostics = m.diagnostics) :
    Stopped code m (.error (.diagnostic d) m')
  | reported {m' : Machine} (hm' : m'.diagnostics = m.diagnostics ++ [.immutableRebind]) :
    Stopped code m (.error .reported m')
  | nested {m₁ m' : Machine} {i : Instruction} {handle : Value} {e₁ : Expression} {heap₁ : Heap} {k : Nat}
    {reports : List Diagnostic} (hcomes : Comes evaluate code m i m₁)
    (hresolve : m₁.resolve i = .ok (.evaluate handle e₁)) (hrelease : Heap.release handle m₁.heap = .ok () heap₁)
    (hm₁ : m₁.diagnostics = m.diagnostics) (hfails : Fails k e₁ (m₁.descended heap₁) reports)
    (hm' : m'.diagnostics = m.diagnostics ++ reports) : Stopped code m (.error (.diagnostic .nestedEvaluation) m')

/-! ## Instructions -/

theorem assign_stopped {v : Value} {index : Nat} {mutability : Mutability} {r : EStateM.Result Halt Machine Unit}
    (hassigns : Assigns host m v index mutability r) (hv : v ≠ .error) (code : List Instruction) :
    Stopped code m r := by
  cases hassigns with
  | bound hb _ =>
    cases hb with
    | granted _ hm _ =>
      have hdiagnostics := congrArg diagnostics hm
      exact .finished hdiagnostics
    | refused => exact absurd rfl hv
  | reported hb hbound =>
    cases hb with
    | granted => exact absurd (Value.isError_iff.mp hbound) hv
    | refused => exact .reported rfl
  | failed => exact .fault rfl

theorem perform_stopped {action : Action} {i : Instruction} (ha : m.Accounts ledger host)
    (hresolve : m.resolve i = .ok action) (hw : m.Warrants action) (hcarried : .error ∉ action.carried)
    (hev : ∀ handle e heap₁, action = .evaluate handle e → Heap.release handle m.heap = .ok () heap₁ →
      (m.descended heap₁).Accounts ledger host → Diagnoses e (m.descended heap₁) (evaluate e (m.descended heap₁))) :
    Stopped [i] m (perform evaluate action m) := by
  by_cases hpushing : action.Pushing
  · have hpushes := perform_pushing ha hw hpushing evaluate
    cases hrun : perform evaluate action m with
    | ok a m' =>
      have hdiagnostics := congrArg diagnostics (hpushes.of_ok hrun).confines.machine_eq
      exact .finished hdiagnostics
    | error halt m' =>
      obtain ⟨⟨e, rfl, -⟩, -, hconfines⟩ := hpushes.of_error hrun
      have hdiagnostics := congrArg diagnostics hconfines.machine_eq
      exact .fault hdiagnostics
  · cases action with
    | push | intern | replace | compare | pack | quote | cons => exact absurd trivial hpushing
    | skip => exact .finished rfl
    | assign v index mutability =>
      have hv : v ≠ .error := Value.error_not_mem_singleton.mp hcarried
      have hassigns := assign_ends ha hw.supports index mutability evaluate
      cases hrun : perform evaluate (.assign v index mutability) m with
      | ok a m' => exact assign_stopped (hassigns.of_ok hrun).2 hv [i]
      | error halt m' => exact assign_stopped (hassigns.of_error hrun).2 hv [i]
    | evaluate handle e =>
      obtain ⟨hhead, -, -⟩ := hw.supports
      rw [Machine.Accounts, roots_of_head hhead, roots_cons] at ha
      obtain ⟨heap₁, hrelease, ha₁, -, -⟩ := ha.release
      have hdiagnoses := hev handle e heap₁ rfl hrelease ha₁
      rw [perform_evaluate hrelease]
      cases hrun : evaluate e (m.descended heap₁) with
      | error f m₂ =>
        have hm₂ := hdiagnoses.of_error hrun
        exact .fault hm₂
      | ok v m₂ =>
        dsimp only
        rcases hdiagnoses.of_ok hrun with ⟨hv, hm₂⟩ | ⟨rfl, k, reports, hfails, hm₂⟩
        · rw [if_neg fun heq => hv (Value.isError_iff.mp heq)]
          exact .finished hm₂
        · rw [if_pos (Value.isError_iff.mpr rfl)]
          exact .nested (.here i [] m) hresolve hrelease rfl hfails hm₂

theorem step_stopped {i : Instruction} (ha : m.Accounts ledger host) (hclean : m.Clean)
    (hev : ∀ handle e heap₁, m.resolve i = .ok (.evaluate handle e) → Heap.release handle m.heap = .ok () heap₁ →
      (m.descended heap₁).Accounts ledger host → Diagnoses e (m.descended heap₁) (evaluate e (m.descended heap₁))) :
    Stopped [i] m (step evaluate i m) := by
  have hpasses := resolve_passes ha i
  have hdraws := m.resolve_draws i
  rw [step_apply, Carrier.machine_eq]
  cases hresolve : m.resolve i with
  | ok action =>
    rw [hresolve] at hpasses hdraws
    refine perform_stopped ha hresolve hpasses (hdraws.clean hclean) ?_
    rintro handle e heap₁ rfl
    exact hev handle e heap₁ hresolve
  | error halt =>
    rw [hresolve] at hdraws
    cases halt with
    | diagnostic d => exact .own (Diagnostic.OfInstruction.ne_nestedEvaluation hdraws) rfl
    | reported => exact hdraws.elim
    | fault f => exact .fault rfl

theorem Comes.of_singleton {evaluate : Expression → MachineM Fault Value} {i j : Instruction}
    (hcomes : Comes evaluate [i] m j m') (rest : List Instruction) : Comes evaluate (i :: rest) m j m' := by
  cases hcomes with
  | here => exact .here i rest m
  | next _ hrest => cases hrest

theorem Stopped.first {i : Instruction} {halt : Halt} (hstopped : Stopped [i] m (.error halt m'))
    (rest : List Instruction) : Stopped (i :: rest) m (.error halt m') := by
  cases hstopped with
  | fault hm' => exact .fault hm'
  | own hd hm' => exact .own hd hm'
  | reported hm' => exact .reported hm'
  | nested hcomes hresolve hrelease hm₁ hfails hm' =>
    exact .nested (hcomes.of_singleton rest) hresolve hrelease hm₁ hfails hm'

theorem Stopped.next {i : Instruction} {rest : List Instruction} {m₁ : Machine} {r : EStateM.Result Halt Machine Unit}
    (hstep : step evaluate i m = .ok () m₁) (hm₁ : m₁.diagnostics = m.diagnostics) (hstopped : Stopped rest m₁ r) :
    Stopped (i :: rest) m r := by
  cases hstopped with
  | finished hm' => exact .finished (hm'.trans hm₁)
  | fault hm' => exact .fault (hm'.trans hm₁)
  | own hd hm' => exact .own hd (hm'.trans hm₁)
  | reported hm' => exact .reported (hm₁ ▸ hm')
  | nested hcomes hresolve hrelease hm₂ hfails hm' =>
    exact .nested (.next hstep hcomes) hresolve hrelease (hm₂.trans hm₁) hfails (hm₁ ▸ hm')

theorem Clean.descended {handle : Value} {heap₁ : Heap} (hclean : m.Clean)
    (hrelease : Heap.release handle m.heap = .ok () heap₁) : (m.descended heap₁).Clean := by
  have hheap := (Heap.clears_release handle m.heap hclean.heap).of_ok hrelease
  exact ⟨(hclean.dropped 1).stack, hclean.scope, hheap⟩

theorem runCode_stopped {code : List Instruction} {room : Nat} (ha : m.Accounts ledger host) (hclean : m.Clean)
    (hbase : m.base = floor.length) (hfloor : floor <:+ m.stack) (hroom : m.limits.maxDepth - m.depth = room)
    (hev : ∀ e m', m'.limits.maxDepth - m'.depth < room → m'.Accounts ledger host → m'.Clean →
      Diagnoses e m' (evaluate e m')) : Stopped code m (runCode evaluate code m) := by
  induction code generalizing m with
  | nil => exact .finished rfl
  | cons i rest ih =>
    have hstopped : Stopped [i] m (step evaluate i m) := by
      refine step_stopped ha hclean fun handle e heap₁ hresolve hrelease ha₁ => ?_
      have hdraws := m.resolve_draws i
      rw [hresolve] at hdraws
      have hdepth : m.depth < m.limits.maxDepth := hdraws.depth_lt trivial
      refine hev e _ ?_ ha₁ (hclean.descended hrelease)
      change m.limits.maxDepth - (m.depth + 1) < room
      omega
    have hstep := step_ends ha hbase hfloor (m.spares_empty i) fun _ e heap₁ _ _ ha₁ => evaluate_ends_free ha₁ e
    have hstepClean := step_clean (fun e _ => evaluate_clean e) hclean i
    change Stopped (i :: rest) m (EStateM.bind (step evaluate i) _ m)
    unfold EStateM.bind
    cases hrun : step evaluate i m with
    | error halt m₁ =>
      rw [hrun] at hstopped
      exact hstopped.first rest
    | ok a m₁ =>
      obtain ⟨ha₁, he⟩ := hstep.of_ok hrun
      have hm₁ : m₁.diagnostics = m.diagnostics := by
        rw [hrun] at hstopped
        cases hstopped with
        | finished hm₁ => exact hm₁
      refine .next hrun hm₁ (ih ha₁ (hstepClean.of_ok hrun) (he.base_eq.trans hbase) he.suffix ?_)
      rw [he.depth_eq, he.limits_eq]
      exact hroom

/-! ## Whole evaluations -/

theorem Diagnoses.of_own {d : Diagnostic} {before : List Diagnostic} (hcode : e.code ≠ [])
    (hrun : evaluate e m = .ok .error m') (hm' : m'.diagnostics = before ++ [d]) (hbefore : before = m.diagnostics)
    (hd : d ≠ .nestedEvaluation) : Diagnoses e m (.ok .error m') := by
  subst hbefore
  exact .inr ⟨rfl, 0, [d], ⟨e, m, m', [d], .here e m, rfl, .own hcode hd, hrun, hm', rfl⟩, hm'⟩

theorem Fails.around {i : Instruction} {m₁ : Machine} {handle : Value} {e₁ : Expression} {heap₁ : Heap}
    {reports : List Diagnostic} (hcomes : Comes evaluate e.code { m with base := m.stack.length } i m₁)
    (hresolve : m₁.resolve i = .ok (.evaluate handle e₁)) (hrelease : Heap.release handle m₁.heap = .ok () heap₁)
    (hm₁ : m₁.diagnostics = m.diagnostics) (hfails : Fails k e₁ (m₁.descended heap₁) reports) :
    Fails (k + 1) e m (reports ++ [.nestedEvaluation]) := by
  obtain ⟨e', m₂, m₃, own, hdescends, hm₂, hblames, hrun, hm₃, rfl⟩ := hfails
  refine ⟨e', m₂, m₃, own, .deeper hcomes hresolve hrelease hdescends, hm₂.trans hm₁, hblames, hrun, hm₁ ▸ hm₃, ?_⟩
  rw [List.append_assoc, List.replicate_succ']

theorem Stopped.diagnoses {r : EStateM.Result Halt Machine Unit} {v : Value} {reports : List Diagnostic}
    (hstopped : Stopped e.code { m with base := m.stack.length } r) (hverdict : Verdict m.stack r v reports)
    (hclean : (endState r).Clean) (hcode : e.code ≠ []) (hrun : evaluate e m = .ok v m')
    (hm' : m'.diagnostics = (endState r).diagnostics ++ reports) : Diagnoses e m (.ok v m') := by
  cases hverdict with
  | nothing =>
    cases hstopped with
    | finished hsame => exact .of_own hcode hrun hm' hsame (by simp)
  | imbalance =>
    cases hstopped with
    | finished hsame => exact .of_own hcode hrun hm' hsame (by simp)
  | result hstack =>
    cases hstopped with
    | finished hsame =>
      refine .inl ⟨?_, hm'.trans ((List.append_nil _).trans hsame)⟩
      rintro rfl
      exact hclean.stack (hstack ▸ List.mem_cons_self)
  | diagnostic d m₁ =>
    cases hstopped with
    | own hd hsame => exact .of_own hcode hrun hm' hsame hd
    | @nested _ _ _ _ _ _ k reports hcomes hresolve hrelease hm₁ hfails hmore =>
      refine .inr ⟨rfl, k + 1, reports ++ [.nestedEvaluation], hfails.around hcomes hresolve hrelease hm₁, ?_⟩
      rw [← List.append_assoc]
      exact hm'.trans (congrArg (· ++ _) hmore)
  | reported m₁ =>
    cases hstopped with
    | reported hmore => exact .of_own hcode hrun (hm'.trans ((List.append_nil _).trans hmore)) rfl (by simp)

/-- In a clean machine `evaluate` reports nothing, or it yields the error value and reports why. -/
theorem evaluate_diagnoses {room : Nat} (ha : m.Accounts ledger host) (hclean : m.Clean)
    (hroom : m.limits.maxDepth - m.depth = room) (e : Expression) : Diagnoses e m (evaluate e m) := by
  induction room using Nat.strong_induction_on generalizing m e with
  | _ room ih =>
    cases hcode : e.code.isEmpty with
    | true =>
      have hrun : evaluate e m = .ok .error m := by
        rw [evaluate_eq, enter_of_isEmpty hcode]
      rw [hrun]
      have hnil : e.code = [] := List.isEmpty_iff.mp hcode
      have hdiagnostics : m.diagnostics = m.diagnostics ++ [] := (List.append_nil _).symm
      exact .inr ⟨rfl, 0, [], ⟨e, m, m, [], .here e m, rfl, .empty hnil, hrun, hdiagnostics, rfl⟩, hdiagnostics⟩
    | false =>
      have hne : e.code ≠ [] := fun hnil => by
        rw [hnil] at hcode
        cases hcode
      have hends := @runCode_ends { m with base := m.stack.length } ledger host ∅ m.stack evaluate e.code ha rfl
        (List.suffix_refl _) (fun i m₁ _ => m₁.spares_empty i) fun _ _ _ e' _ _ _ _ ha₁ => evaluate_ends_free ha₁ e'
      have hstart : { m with base := m.stack.length }.Clean := ⟨hclean.stack, hclean.scope, hclean.heap⟩
      have hstopped := @runCode_stopped { m with base := m.stack.length } ledger host m.stack e.code room ha hstart rfl
        (List.suffix_refl _) hroom fun e' m' hlt ha' hclean' => ih _ hlt ha' hclean' rfl e'
      have hrunClean := runCode_clean (fun e _ => evaluate_clean e) hstart e.code
      have heq := evaluate_eq e m
      rw [enter_of_code hcode] at heq
      by_cases hfault : ∃ f m₁, runCode evaluate e.code { m with base := m.stack.length } = .error (.fault f) m₁
      · obtain ⟨f, m₁, hrun⟩ := hfault
        rw [hrun] at heq hstopped
        rw [heq]
        cases hstopped with
        | fault hsame => exact hsame
      · have hnot := fun f m₁ hrun => hfault ⟨f, m₁, hrun⟩
        have hcontinues := continues_endState hends hnot
        obtain ⟨v, reports, m', hleave, hverdict, hleaves⟩ :=
          leave_eq hnot hcontinues.accounts hcontinues.evolves.suffix
        have hdiagnostics := congrArg diagnostics hleaves.machine_eq
        rw [hleave] at heq
        rw [heq]
        exact hstopped.diagnoses hverdict hrunClean.endState hne heq hdiagnostics

end Machine

/-- **What an evaluation reports.** If it yields a value, or ends with a fault, it reports nothing. If it yields the
error value, some expression failed, `k` levels down and none deeper than may be: it reported one diagnostic other than
`nestedEvaluation`, or it has no instructions and is nested and reported nothing; and the `k` expressions around it each
reported `nestedEvaluation`. However the evaluation ends, no error value is stored. -/
theorem evaluation_diagnosed {m : Machine} {host : Multiset Value} {e : Expression} (hsafe : m.Safe host)
    (hclean : m.Clean) (hcode : e.code ≠ []) :
    (∀ v m', Machine.evaluate e m = .ok v m' → v ≠ .error → m'.diagnostics = m.diagnostics) ∧
    (∀ f m', Machine.evaluate e m = .error f m' → m'.diagnostics = m.diagnostics) ∧
    (∀ m', Machine.evaluate e m = .ok .error m' → ∃ k e' m₁ m₂, k ≤ m.limits.maxDepth - m.depth ∧
      Machine.Descends k e m e' m₁ ∧ m₁.depth = m.depth + k ∧ Machine.evaluate e' m₁ = .ok .error m₂ ∧
      ((∃ d, d ≠ .nestedEvaluation ∧ e'.code ≠ [] ∧ m₂.diagnostics = m.diagnostics ++ [d] ∧
          m'.diagnostics = m.diagnostics ++ d :: List.replicate k .nestedEvaluation) ∨
        1 ≤ k ∧ e'.code = [] ∧ m₂.diagnostics = m.diagnostics ∧
          m'.diagnostics = m.diagnostics ++ List.replicate k .nestedEvaluation)) ∧
    EndsIn Machine.Clean (Machine.evaluate e m) := by
  have hdiagnoses := Machine.evaluate_diagnoses hsafe.accounts hclean rfl e
  refine ⟨fun v m' hrun hv => ?_, fun f m' hrun => hdiagnoses.of_error hrun, fun m' hrun => ?_,
    Machine.evaluate_clean e hclean⟩
  · rcases hdiagnoses.of_ok hrun with ⟨-, hm'⟩ | ⟨rfl, -⟩
    · exact hm'
    · exact absurd rfl hv
  · rcases hdiagnoses.of_ok hrun with ⟨hv, -⟩ | ⟨-, k, reports, hfails, hm'⟩
    · exact absurd rfl hv
    · obtain ⟨e', m₁, m₂, own, hdescends, -, hblames, hrun', hm₂, rfl⟩ := hfails
      obtain ⟨hdepth, hlimits⟩ := hdescends.depth_eq
      have hk : k ≤ m.limits.maxDepth - m.depth := by
        by_cases hpos : 0 < k
        · have hle := hdescends.depth_le hpos
          rw [hdepth, hlimits] at hle
          omega
        · omega
      refine ⟨k, e', m₁, m₂, hk, hdescends, hdepth, hrun', ?_⟩
      cases hblames with
      | own hcode' hd => exact .inl ⟨_, hd, hcode', hm₂, hm'⟩
      | empty hcode' =>
        refine .inr ⟨?_, hcode', hm₂.trans (List.append_nil _), hm'⟩
        by_contra hlt
        obtain rfl : k = 0 := by omega
        cases hdescends
        exact hcode hcode'

/-- Makes an expression that asks for the head of a list with nothing on its frame, and evaluates it. -/
def quotedUnderflow : Expression :=
  ⟨Ty.integer.tag, [.loadInteger 0, .loadOpcode .listHead, .newTuple 2, .loadType .integer, .newExpression 1,
    .evaluateExpression]⟩

/-- A new machine that evaluates an expression which fails one level down. -/
theorem evaluation_diagnosed_underflow : ∃ m', Machine.evaluate quotedUnderflow {} = .ok .error m' ∧
    m'.diagnostics = [.stackUnderflow .listHead, .nestedEvaluation] ∧ m'.Clean ∧
    ∃ e' m₁ m₂, Machine.Descends 1 quotedUnderflow {} e' m₁ ∧ Machine.evaluate e' m₁ = .ok .error m₂ ∧
      m₂.diagnostics = [.stackUnderflow .listHead] := by
  have hyields : (answer? (Machine.evaluate quotedUnderflow {})).map (fun p => (p.1, p.2.diagnostics)) =
      some (.error, [.stackUnderflow .listHead, .nestedEvaluation]) := by
    decide +kernel
  have hsafe : Machine.Safe {} 0 := (Machine.balanced_iff.mp (Machine.balanced_new {} {})).safe
  have hcode : quotedUnderflow.code ≠ [] := by decide
  obtain ⟨-, -, herror, hclean⟩ := evaluation_diagnosed hsafe (Machine.clean_new {} {}) hcode
  obtain ⟨⟨v, m'⟩, hanswer, hpair⟩ := Option.map_eq_some_iff.mp hyields
  have hrun := answer?_eq_some_iff.mp hanswer
  obtain ⟨rfl, hm'⟩ := Prod.mk.inj hpair
  refine ⟨m', hrun, hm', hclean.of_ok hrun, ?_⟩
  obtain ⟨k, e', m₁, m₂, -, hdescends, -, hnested, hreports⟩ := herror m' hrun
  rw [hm'] at hreports
  rcases hreports with ⟨d, -, -, hm₂, heq⟩ | ⟨-, -, -, heq⟩
  · obtain rfl : k = 1 := by simpa using (congrArg List.length heq).symm
    obtain rfl : d = .stackUnderflow .listHead := (List.cons.inj heq).1.symm
    exact ⟨e', m₁, m₂, hdescends, hnested, hm₂⟩
  · rw [List.nil_append] at heq
    have hmem : Diagnostic.stackUnderflow .listHead ∈ List.replicate k .nestedEvaluation := heq ▸ List.mem_cons_self
    cases List.eq_of_mem_replicate hmem

end RefMachine
