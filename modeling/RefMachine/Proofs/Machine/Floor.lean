import RefMachine.Proofs.Machine.Draws
import RefMachine.Proofs.Machine.Evaluate
import RefMachine.Proofs.Machine.History

/-!
# Keeping to a floor

A run with a record is on a floor: the stack stands on it, and it stands on the stacks with which the evaluations under
way were entered (`Ready`). Every operation keeps to the floor (`Keeps`), because an instruction takes values of its own
frame only. Entering an expression makes the whole stack the new floor, and leaving it without a fault takes the stack
back to there (`evaluateWithin_framed`).
-/

namespace RefMachine

variable {ε ε' α β : Type} {floor : List Value}

namespace Machine

variable {m m' m'' : Machine}

/-! ## Operations that leave the stack alone -/

/-- The stack and the frame are the same in both machines. -/
structure Agrees (m m' : Machine) : Prop where
  stack_eq : m'.stack = m.stack
  base_eq : m'.base = m.base
  depth_eq : m'.depth = m.depth
  limits_eq : m'.limits = m.limits

theorem Agrees.refl (m : Machine) : m.Agrees m :=
  ⟨rfl, rfl, rfl, rfl⟩

theorem Agrees.trans (h₁ : m.Agrees m') (h₂ : m'.Agrees m'') : m.Agrees m'' where
  stack_eq := h₂.stack_eq.trans h₁.stack_eq
  base_eq := h₂.base_eq.trans h₁.base_eq
  depth_eq := h₂.depth_eq.trans h₁.depth_eq
  limits_eq := h₂.limits_eq.trans h₁.limits_eq

/-- The operation leaves the stack alone, whether or not it fails. -/
def Steady (x : MachineM ε α) : Prop :=
  ∀ m, Ends (fun _ => m.Agrees) (fun _ => m.Agrees) (x m)

namespace Steady

theorem bind {x : MachineM ε α} {f : α → MachineM ε β} (hx : Steady x) (hf : ∀ a, Steady (f a)) : Steady (x >>= f) := by
  intro m
  refine (hx m).bind fun a m₁ hm₁ => ?_
  exact (hf a m₁).mono (fun _ _ => hm₁.trans) fun _ _ => hm₁.trans

theorem adaptExcept {x : MachineM ε α} (hx : Steady x) (g : ε → ε') : Steady (x.adaptExcept g) :=
  fun m => Ends.adaptExcept (hx m)

end Steady

theorem steady_onHeap (f : HeapM α) : Steady (onHeap f) := by
  intro m
  rw [onHeap_eq]
  cases f m.heap <;> exact ⟨rfl, rfl, rfl, rfl⟩

theorem steady_faulting (f : HeapM α) : Steady (faulting f) :=
  (steady_onHeap f).adaptExcept _

theorem steady_report (d : Diagnostic) : Steady (report d : MachineM ε Unit) :=
  fun _ => ⟨rfl, rfl, rfl, rfl⟩

theorem steady_setBinding (index : Nat) (binding : Option Binding) :
    Steady (setBinding index binding : MachineM ε Unit) :=
  fun _ => ⟨rfl, rfl, rfl, rfl⟩

theorem steady_bindVariable (index : Nat) (v : Value) (mutability : Mutability) :
    Steady (bindVariable index v mutability) := by
  have hpure : ∀ w : Value, Steady (pure w : MachineM ScopeError Value) := fun _ => .refl
  intro m
  refine Ends.bind_get ?_
  cases m.scope.lookup index with
  | error e => exact .refl m
  | ok binding =>
    cases binding with
    | none =>
      refine (((steady_onHeap _).adaptExcept _).bind fun _ => ?_) m
      exact (steady_setBinding index _).bind fun _ => hpure v
    | some old =>
      dsimp only
      split_ifs
      · refine (((steady_onHeap _).adaptExcept _).bind fun _ => ((steady_onHeap _).adaptExcept _).bind fun _ => ?_) m
        exact (steady_setBinding index _).bind fun _ => hpure v
      · exact ((steady_report .immutableRebind).bind fun _ => hpure .error) m

/-! ## Standing on a floor -/

/-- The frame is the same in both machines, and the stack of the second stands on the floor. -/
structure Rests (floor : List Value) (m m' : Machine) : Prop where
  suffix : floor <:+ m'.stack
  base_eq : m'.base = m.base
  depth_eq : m'.depth = m.depth
  limits_eq : m'.limits = m.limits

namespace Rests

theorem refl (hfloor : floor <:+ m.stack) : m.Rests floor m :=
  ⟨hfloor, rfl, rfl, rfl⟩

theorem trans (h₁ : m.Rests floor m') (h₂ : m'.Rests floor m'') : m.Rests floor m'' where
  suffix := h₂.suffix
  base_eq := h₂.base_eq.trans h₁.base_eq
  depth_eq := h₂.depth_eq.trans h₁.depth_eq
  limits_eq := h₂.limits_eq.trans h₁.limits_eq

end Rests

theorem Agrees.rests (hm : m.Agrees m') (hfloor : floor <:+ m.stack) : m.Rests floor m' :=
  ⟨hm.stack_eq ▸ hfloor, hm.base_eq, hm.depth_eq, hm.limits_eq⟩

end Machine

/-- The stack stands on the floor and on the stacks with which the evaluations under way were entered. -/
structure Moment.Stands (floor : List Value) (moment : Moment) : Prop where
  suffix : floor <:+ moment.machine.stack
  entries : ∀ entry ∈ moment.entries, entry <:+ moment.machine.stack

namespace History

open Machine Carrier

variable {h h' h'' : History} {m : Machine} {x : HistoryM ε α}

/-- The present moment of a run. -/
abbrev present (h : History) : Moment :=
  ⟨h.machine, h.entries⟩

/-- A run is on the floor if its stack stands on it, and the floor on the stacks that were entered with. -/
structure Ready (floor : List Value) (h : History) : Prop where
  suffix : floor <:+ h.machine.stack
  entries : ∀ entry ∈ h.entries, entry <:+ floor
  noted : h.present ∈ h.moments

/-- The run went on without leaving the floor. -/
structure Keeps (floor : List Value) (h h' : History) : Prop where
  rests : h.machine.Rests floor h'.machine
  entries_eq : h'.entries = h.entries
  noted : h'.present ∈ h'.moments
  grows : h.moments <:+ h'.moments
  stands : ∀ moment ∈ h'.moments, moment ∈ h.moments ∨ moment.Stands floor

/-- An operation ended without leaving the floor, with a stack as it should leave it unless it failed. -/
def Framed (floor : List Value) (leaves : List Value → Prop) (h : History) : EStateM.Result ε History α → Prop :=
  Ends (fun _ h' => Keeps floor h h' ∧ leaves h'.machine.stack) fun _ => Keeps floor h

theorem Ready.stands (hr : Ready floor h) (hfloor : floor <:+ m.stack) : Moment.Stands floor ⟨m, h.entries⟩ :=
  ⟨hfloor, fun entry hentry => (hr.entries entry hentry).trans hfloor⟩

namespace Keeps

theorem refl (hr : Ready floor h) : Keeps floor h h :=
  ⟨.refl hr.suffix, rfl, hr.noted, List.suffix_refl _, fun _ hmoment => .inl hmoment⟩

theorem trans (h₁ : Keeps floor h h') (h₂ : Keeps floor h' h'') : Keeps floor h h'' where
  rests := h₁.rests.trans h₂.rests
  entries_eq := h₂.entries_eq.trans h₁.entries_eq
  noted := h₂.noted
  grows := h₁.grows.trans h₂.grows
  stands moment hmoment := (h₂.stands moment hmoment).elim (h₁.stands moment) .inr

theorem ready (hr : Ready floor h) (hk : Keeps floor h h') : Ready floor h' :=
  ⟨hk.rests.suffix, hk.entries_eq ▸ hr.entries, hk.noted⟩

theorem advance (hr : Ready floor h) (hm : h.machine.Rests floor m) : Keeps floor h (h.advance m) where
  rests := hm
  entries_eq := rfl
  noted := List.mem_cons_self
  grows := List.suffix_cons _ _
  stands moment hmoment := by
    rcases List.mem_cons.mp hmoment with rfl | hpast
    · exact .inr (hr.stands hm.suffix)
    · exact .inl hpast

theorem between {h₁ h₂ h₃ : History} {floor' : List Value} (hk : Keeps floor' h₁ h₂) (hfloor : floor <:+ floor')
    (hbefore : h₁.moments = h₁.present :: h.moments) (hafter : h₃.moments = h₃.present :: h₂.moments)
    (h₁stands : h₁.present.Stands floor) (h₃stands : h₃.present.Stands floor) :
    h.moments <:+ h₃.moments ∧ ∀ moment ∈ h₃.moments, moment ∈ h.moments ∨ moment.Stands floor := by
  rw [hafter]
  refine ⟨?_, fun moment hmoment => ?_⟩
  · have hgrows := hk.grows
    rw [hbefore] at hgrows
    exact (List.suffix_cons _ _).trans (hgrows.trans (List.suffix_cons _ _))
  · rcases List.mem_cons.mp hmoment with rfl | hrun
    · exact .inr h₃stands
    · rcases hk.stands moment hrun with hpast | hstands
      · rw [hbefore] at hpast
        rcases List.mem_cons.mp hpast with rfl | hpast
        · exact .inr h₁stands
        · exact .inl hpast
      · exact .inr ⟨hfloor.trans hstands.suffix, hstands.entries⟩

end Keeps

namespace Framed

variable {leaves leaves' : List Value → Prop} {r : EStateM.Result ε History α}

theorem of_keeps (hk : Keeps floor h h') (hr : Framed floor leaves h' r) : Framed floor leaves h r :=
  hr.mono (fun _ _ hr => ⟨hk.trans hr.1, hr.2⟩) fun _ _ => hk.trans

theorem bind {f : α → HistoryM ε β} (hx : Framed floor leaves h (x h))
    (hf : ∀ a h', Keeps floor h h' → leaves h'.machine.stack → Framed floor leaves' h' (f a h')) :
    Framed floor leaves' h ((x >>= f) h) :=
  Ends.bind hx fun a h' hk => (hf a h' hk.1 hk.2).of_keeps hk.1

theorem adaptExcept (hx : Framed floor leaves h (x h)) (g : ε → ε') : Framed floor leaves h (x.adaptExcept g h) :=
  Ends.adaptExcept hx

theorem weaken (hr : Framed floor leaves h r) : Framed floor (fun _ => True) h r :=
  hr.mono (fun _ _ hk => ⟨hk.1, trivial⟩) fun _ _ => id

theorem keeps (hr : Framed floor leaves h r) : Keeps floor h (endState r) := by
  cases r with
  | ok a h' => exact hr.1
  | error e h' => exact hr

end Framed

/-! ## Moves -/

theorem run_framed {y : MachineM ε α} {leaves : List Value → Prop} (hr : Ready floor h)
    (hy : Ends (fun _ m' => h.machine.Rests floor m' ∧ leaves m'.stack) (fun _ => h.machine.Rests floor)
      (y h.machine)) : Framed floor leaves h (run y h) := by
  change Framed floor leaves h (move y h)
  unfold move
  cases hrun : y h.machine with
  | ok a m' =>
    obtain ⟨hrests, hleaves⟩ := hy.of_ok hrun
    exact ⟨.advance hr hrests, hleaves⟩
  | error e m' => exact .advance hr (hy.of_error hrun)

theorem steady_framed {y : MachineM ε α} (hr : Ready floor h) (hy : Machine.Steady y) :
    Framed floor (· = h.machine.stack) h (run y h) := by
  refine run_framed hr ((hy h.machine).mono ?_ ?_)
  · intro a m' hm
    exact ⟨hm.rests hr.suffix, hm.stack_eq⟩
  · intro e m' hm
    exact hm.rests hr.suffix

theorem drop_framed {n : Nat} (hr : Ready floor h) (hn : floor <:+ h.machine.stack.drop n) :
    Framed floor (· = h.machine.stack.drop n) h ((run (Machine.drop n) : HistoryM ε Unit) h) :=
  run_framed hr ⟨⟨hn, rfl, rfl, rfl⟩, rfl⟩

theorem push_framed (hr : Ready floor h) (v : Value) :
    Framed floor (fun _ => True) h ((run (Machine.push v) : HistoryM ε Unit) h) :=
  run_framed hr ⟨⟨hr.suffix.trans (List.suffix_cons _ _), rfl, rfl, rfl⟩, trivial⟩

theorem share_framed (hr : Ready floor h) (v : Value) : Framed floor (fun _ => True) h (share v h) :=
  (steady_framed hr (Machine.steady_faulting _)).bind fun _ _ hk _ => push_framed (hk.ready hr) v

theorem run_of_ok {y : MachineM ε α} {a : α} (hy : y h.machine = .ok a m) : run y h = .ok a (h.advance m) := by
  change move y h = _
  unfold move
  rw [hy]

theorem run_pop?_of_cons {v : Value} {rest : List Value} (hstack : h.machine.stack = v :: rest) :
    (run Machine.pop? : HistoryM ε (Option Value)) h = .ok (some v) (h.advance { h.machine with stack := rest }) := by
  rw [run_of_ok (Machine.pop?_of_cons hstack), Machine.dropped, hstack]
  rfl

theorem Keeps.pop {rest : List Value} (hr : Ready floor h) (hrest : floor <:+ rest) :
    Keeps floor h (h.advance { h.machine with stack := rest }) :=
  .advance hr ⟨hrest, rfl, rfl, rfl⟩

theorem discard_framed {n : Nat} (hr : Ready floor h) (hn : floor <:+ h.machine.stack.drop n) :
    Framed floor (· = h.machine.stack.drop n) h (discard n h) := by
  induction n generalizing h with
  | zero => exact ⟨.refl hr, rfl⟩
  | succ n ih =>
    unfold Machine.discard
    cases hstack : h.machine.stack with
    | nil =>
      rw [bind_apply_of_ok (run_of_ok (Machine.pop?_of_nil hstack))]
      exact ⟨.advance hr (.refl hr.suffix), hstack⟩
    | cons v rest =>
      rw [hstack, List.drop_succ_cons] at hn
      rw [bind_apply_of_ok (run_pop?_of_cons hstack), List.drop_succ_cons]
      have hk := Keeps.pop hr (hn.trans (List.drop_suffix n rest))
      refine .of_keeps hk ((steady_framed (hk.ready hr) (Machine.steady_onHeap _)).bind fun _ h₁ hk₁ hstack₁ => ?_)
      have hrest : h₁.machine.stack = rest := hstack₁
      rw [← hrest]
      exact ih (hk₁.ready (hk.ready hr)) (hrest.symm ▸ hn)

theorem packTuple_framed {arity : Nat} (hr : Ready floor h) (hn : floor <:+ h.machine.stack.drop arity) :
    Framed floor (fun _ => True) h (packTuple arity h) := by
  change Framed floor _ h ((if h.machine.frame.length < arity then _ else _ : HistoryM Fault Handle) h)
  split_ifs
  · exact Keeps.refl hr
  · refine (drop_framed hr hn).bind fun _ h₁ hk₁ _ => ?_
    exact (steady_framed (hk₁.ready hr) ((Machine.steady_onHeap _).adaptExcept _)).weaken

/-! ## Instructions -/

/-- Evaluation keeps to every floor, and restores the stack unless it fails. -/
def Frames (evaluate : Expression → HistoryM Fault Value) : Prop :=
  ∀ floor e h, Ready floor h → Framed floor (· = h.machine.stack) h (evaluate e h)

variable {evaluate : Expression → HistoryM Fault Value}

theorem Ready.deeper (hr : Ready floor h) : Ready floor h.deeper :=
  ⟨hr.suffix, hr.entries, List.mem_cons_self⟩

theorem Keeps.shallower (hr : Ready floor h) (hk : Keeps floor h.deeper h') : Keeps floor h h'.shallower := by
  have hdepth : h'.machine.depth - 1 = h.machine.depth := by
    rw [hk.rests.depth_eq]
    exact Nat.add_sub_cancel _ _
  have hstands : h'.shallower.present.Stands floor := (hk.ready hr.deeper).stands hk.rests.suffix
  obtain ⟨hgrows, hstands⟩ := hk.between (List.suffix_refl _) rfl rfl (hr.stands hr.suffix) hstands
  exact ⟨⟨hk.rests.suffix, hk.rests.base_eq, hdepth, hk.rests.limits_eq⟩, hk.entries_eq, List.mem_cons_self, hgrows,
    hstands⟩

theorem nest_framed (hev : Frames evaluate) (hr : Ready floor h) (e : Expression) :
    Framed floor (fun _ => True) h (nest evaluate e h) := by
  have hends := hev floor e h.deeper hr.deeper
  change Framed floor _ h (afterwards shallower (evaluate e h.deeper))
  cases hrun : evaluate e h.deeper with
  | ok v h' => exact ⟨(hends.of_ok hrun).1.shallower hr, trivial⟩
  | error f h' => exact (hends.of_error hrun).shallower hr

theorem perform_framed {action : Action} (hev : Frames evaluate) (hr : Ready floor h)
    (hn : floor <:+ h.machine.stack.drop action.arity) :
    Framed floor (fun _ => True) h (perform evaluate action h) := by
  cases action with
  | skip => exact ⟨.refl hr, trivial⟩
  | push v => exact share_framed hr v
  | intern text =>
    refine (steady_framed hr (Machine.steady_faulting _)).bind fun _ h₁ hk₁ _ => ?_
    exact share_framed (hk₁.ready hr) _
  | replace old new =>
    refine (steady_framed hr (Machine.steady_faulting _)).bind fun _ h₁ hk₁ hstack₁ => ?_
    have hr₁ := hk₁.ready hr
    refine (drop_framed hr₁ (hstack₁ ▸ hn)).bind fun _ h₂ hk₂ _ => ?_
    have hr₂ := hk₂.ready hr₁
    refine (push_framed hr₂ new).bind fun _ h₃ hk₃ _ => ?_
    exact (steady_framed (hk₃.ready hr₂) (Machine.steady_faulting _)).weaken
  | compare result => exact (drop_framed hr hn).bind fun _ h₁ hk₁ _ => push_framed (hk₁.ready hr) _
  | pack arity =>
    exact ((packTuple_framed hr hn).adaptExcept _).bind fun _ h₁ hk₁ _ => share_framed (hk₁.ready hr) _
  | quote e =>
    have hone : floor <:+ h.machine.stack.drop 1 := by
      refine hn.trans ?_
      rw [Action.arity, Nat.add_comm, ← List.drop_drop]
      exact List.drop_suffix _ _
    refine (drop_framed hr hone).bind fun _ h₁ hk₁ hstack₁ => ?_
    have hr₁ := hk₁.ready hr
    have hcode : floor <:+ h₁.machine.stack.drop e.code.length := by
      rw [hstack₁, List.drop_drop, Nat.add_comm]
      exact hn
    refine ((discard_framed hr₁ hcode).adaptExcept _).bind fun _ h₂ hk₂ _ => ?_
    have hr₂ := hk₂.ready hr₁
    refine (steady_framed hr₂ (Machine.steady_faulting _)).bind fun _ h₃ hk₃ _ => ?_
    exact share_framed (hk₃.ready hr₂) _
  | evaluate handle e =>
    refine (drop_framed hr hn).bind fun _ h₁ hk₁ _ => ?_
    have hr₁ := hk₁.ready hr
    refine (steady_framed hr₁ (Machine.steady_faulting _)).bind fun _ h₂ hk₂ _ => ?_
    have hr₂ := hk₂.ready hr₁
    refine ((nest_framed hev hr₂ e).adaptExcept _).bind fun v h₃ hk₃ _ => ?_
    have hr₃ := hk₃.ready hr₂
    split_ifs
    · exact Keeps.refl hr₃
    · exact push_framed hr₃ v
  | cons head tail =>
    refine (drop_framed hr hn).bind fun _ h₁ hk₁ _ => ?_
    have hr₁ := hk₁.ready hr
    refine (steady_framed hr₁ (Machine.steady_faulting _)).bind fun _ h₂ hk₂ _ => ?_
    exact share_framed (hk₂.ready hr₁) _
  | assign v index mutability =>
    refine (drop_framed hr hn).bind fun _ h₁ hk₁ _ => ?_
    have hr₁ := hk₁.ready hr
    refine (steady_framed hr₁ ((Machine.steady_bindVariable _ _ _).adaptExcept _)).bind fun bound h₂ hk₂ _ => ?_
    have hr₂ := hk₂.ready hr₁
    split_ifs
    · refine (steady_framed hr₂ (Machine.steady_faulting _)).bind fun _ h₃ hk₃ _ => ?_
      exact Keeps.refl (hk₃.ready hr₂)
    · exact push_framed hr₂ bound

theorem step_framed (hev : Frames evaluate) (hr : Ready floor h) (hbase : h.machine.base = floor.length)
    (i : Instruction) : Framed floor (fun _ => True) h (step evaluate i h) := by
  have hdraws := h.machine.resolve_draws i
  rw [step_apply, machine_carried]
  cases hresolve : h.machine.resolve i with
  | ok action =>
    rw [hresolve] at hdraws
    exact perform_framed hev hr (Machine.suffix_drop hbase hr.suffix hdraws.arity_le)
  | error halt => exact Keeps.refl hr

theorem runCode_framed (hev : Frames evaluate) (hr : Ready floor h) (hbase : h.machine.base = floor.length)
    (code : List Instruction) : Framed floor (fun _ => True) h (runCode evaluate code h) := by
  induction code generalizing h with
  | nil => exact ⟨.refl hr, trivial⟩
  | cons i rest ih =>
    refine (step_framed hev hr hbase i).bind fun _ h₁ hk₁ _ => ?_
    exact ih (hk₁.ready hr) (hk₁.rests.base_eq.trans hbase)

/-! ## Whole evaluations -/

theorem abandon_framed (hr : Ready floor h) : Framed floor (· = floor) h (abandon floor.length h) := by
  have hdrop := Machine.drop_of_suffix hr.suffix
  have hdiscard := @discard_framed floor h (h.machine.stack.length - floor.length) hr (by rw [hdrop])
  rw [hdrop] at hdiscard
  have hunwind : Framed floor (· = floor) h (unwindTo floor.length h) := hdiscard.adaptExcept _
  exact hunwind.bind fun _ h₁ hk₁ hstack₁ => ⟨.refl (hk₁.ready hr), hstack₁⟩

theorem takeResult_framed (hr : Ready floor h) : Framed floor (· = floor) h (takeResult floor.length h) := by
  change Framed floor _ h ((if h.machine.stack.length ≤ floor.length then _ else _ : HistoryM Fault Value) h)
  by_cases hsize : h.machine.stack.length ≤ floor.length
  · rw [if_pos hsize]
    refine (steady_framed hr (Machine.steady_report _)).bind fun _ h₁ hk₁ hstack₁ => ?_
    exact ⟨.refl (hk₁.ready hr), hstack₁.trans (hr.suffix.eq_of_length_le hsize).symm⟩
  · rw [if_neg hsize]
    cases hstack : h.machine.stack with
    | nil =>
      rw [hstack] at hsize
      exact absurd (Nat.zero_le _) hsize
    | cons v rest =>
      have hrest : floor <:+ rest := by
        rcases List.suffix_cons_iff.mp (hstack ▸ hr.suffix) with heq | hrest
        · rw [hstack, heq] at hsize
          exact absurd (Nat.le_refl _) hsize
        · exact hrest
      have hk := Keeps.pop hr hrest
      have hr₁ := hk.ready hr
      rw [bind_apply_of_ok (run_pop?_of_cons hstack)]
      refine .of_keeps hk ?_
      by_cases hlength : (v :: rest).length - 1 = floor.length
      · rw [if_pos hlength]
        rw [List.length_cons, Nat.add_sub_cancel] at hlength
        exact ⟨.refl hr₁, (hrest.eq_of_length hlength.symm).symm⟩
      · rw [if_neg hlength]
        refine (steady_framed hr₁ (Machine.steady_report _)).bind fun _ h₂ hk₂ _ => ?_
        have hr₂ := hk₂.ready hr₁
        refine (steady_framed hr₂ ((Machine.steady_onHeap _).adaptExcept _)).bind fun _ h₃ hk₃ _ => ?_
        exact abandon_framed (hk₃.ready hr₂)

theorem leave_framed {r : EStateM.Result Halt History Unit} (hr : Ready floor (endState r)) :
    Framed floor (· = floor) (endState r) (leave floor.length r) := by
  cases r with
  | ok a h => exact takeResult_framed hr
  | error halt h =>
    cases halt with
    | diagnostic d =>
      refine (steady_framed hr (Machine.steady_report d)).bind fun _ h₁ hk₁ _ => ?_
      exact abandon_framed (hk₁.ready hr)
    | reported => exact abandon_framed hr
    | fault f => exact Keeps.refl hr

theorem Ready.opened (hr : Ready floor h) : Ready h.machine.stack h.opened := by
  refine ⟨List.suffix_refl _, fun entry hentry => ?_, List.mem_cons_self⟩
  rcases List.mem_cons.mp hentry with rfl | houter
  · exact List.suffix_refl _
  · exact (hr.entries entry houter).trans hr.suffix

theorem Keeps.closed (hr : Ready floor h) (hk : Keeps h.machine.stack h.opened h') : Keeps floor h (h.closed h') := by
  have hfloor : floor <:+ h'.machine.stack := hr.suffix.trans hk.rests.suffix
  have hstands : (h.closed h').present.Stands floor := hr.stands hfloor
  obtain ⟨hgrows, hstands⟩ := hk.between hr.suffix rfl rfl ⟨hr.suffix, hr.opened.entries⟩ hstands
  exact ⟨⟨hfloor, rfl, hk.rests.depth_eq, hk.rests.limits_eq⟩, rfl, List.mem_cons_self, hgrows, hstands⟩

theorem enter_framed (hev : Frames evaluate) : Frames (enter evaluate) := by
  intro floor e h hr
  cases hcode : e.code.isEmpty with
  | true =>
    rw [enter_of_isEmpty hcode]
    exact ⟨.refl hr, rfl⟩
  | false =>
    have hk := (runCode_framed hev hr.opened rfl e.code).keeps
    have hleave := (leave_framed (hk.ready hr.opened)).of_keeps hk
    rw [enter_of_code hcode]
    cases hrun : leave h.machine.stack.length (runCode evaluate e.code h.opened) with
    | ok v h' =>
      obtain ⟨hk', hstack⟩ := hleave.of_ok hrun
      exact ⟨hk'.closed hr, hstack⟩
    | error f h' => exact (hleave.of_error hrun).closed hr

/-- `evaluateWithin` on a history keeps to every floor that the history is on. -/
theorem evaluateWithin_framed (room : Nat) : Frames (evaluateWithin room) := by
  induction room with
  | zero => exact enter_framed fun floor e h hr => ⟨.refl hr, rfl⟩
  | succ room ih => exact enter_framed ih

theorem innerWithin_framed (room : Nat) : Frames (innerWithin room) := by
  cases room with
  | zero => exact fun floor e h hr => ⟨.refl hr, rfl⟩
  | succ room => exact evaluateWithin_framed room

end History

end RefMachine
