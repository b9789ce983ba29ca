import Mathlib.Data.List.Forall2

/-!
# How operations end

`Ends good bad` says of the end of an operation that its answer and state are good, or its error and state bad, and
`Passes good bad` says the same of a check, which has no state. What follows an operation only needs to end well from
what is known after it (`Ends.bind`), and an error stops it.
-/

namespace RefMachine

variable {ε ε' σ α β : Type}

theorem get_bind_apply (f : σ → EStateM ε σ β) (s : σ) : (get >>= f) s = f s s :=
  rfl

theorem bind_apply_of_ok {x : EStateM ε σ α} {s s' : σ} {a : α} (hx : x s = .ok a s') (f : α → EStateM ε σ β) :
    (x >>= f) s = f a s' := by
  change EStateM.bind x f s = _
  unfold EStateM.bind
  rw [hx]

theorem bind_apply_of_error {x : EStateM ε σ α} {s s' : σ} {e : ε} (hx : x s = .error e s') (f : α → EStateM ε σ β) :
    (x >>= f) s = .error e s' := by
  change EStateM.bind x f s = _
  unfold EStateM.bind
  rw [hx]

theorem adaptExcept_apply_of_ok {x : EStateM ε σ α} {s s' : σ} {a : α} (hx : x s = .ok a s') (g : ε → ε') :
    x.adaptExcept g s = .ok a s' := by
  unfold EStateM.adaptExcept
  rw [hx]

/-- The operation ended with an answer and a state that are good, or with an error and a state that are bad. -/
def Ends (good : α → σ → Prop) (bad : ε → σ → Prop) : EStateM.Result ε σ α → Prop
  | .ok a s => good a s
  | .error e s => bad e s

namespace Ends

variable {good good' : α → σ → Prop} {bad bad' : ε → σ → Prop} {s : σ}

theorem mono {r : EStateM.Result ε σ α} (h : Ends good bad r) (hgood : ∀ a s, good a s → good' a s)
    (hbad : ∀ e s, bad e s → bad' e s) : Ends good' bad' r := by
  cases r with
  | ok a s => exact hgood a s h
  | error e s => exact hbad e s h

theorem of_forall (hgood : ∀ a s, good a s) (hbad : ∀ e s, bad e s) (r : EStateM.Result ε σ α) : Ends good bad r := by
  cases r with
  | ok a s => exact hgood a s
  | error e s => exact hbad e s

theorem bind {next : β → σ → Prop} {x : EStateM ε σ α} {f : α → EStateM ε σ β} (hx : Ends good bad (x s))
    (hf : ∀ a s', good a s' → Ends next bad (f a s')) : Ends next bad ((x >>= f) s) := by
  change Ends next bad (EStateM.bind x f s)
  unfold EStateM.bind
  cases hrun : x s with
  | ok a s' =>
    rw [hrun] at hx
    exact hf a s' hx
  | error e s' =>
    rw [hrun] at hx
    exact hx

theorem bind_get {next : β → σ → Prop} {f : σ → EStateM ε σ β} (hf : Ends next bad (f s s)) :
    Ends next bad ((get >>= f) s) :=
  hf

theorem bind_modify {next : β → σ → Prop} {g : σ → σ} {f : PUnit → EStateM ε σ β} (hf : Ends next bad (f () (g s))) :
    Ends next bad ((modify g >>= f) s) :=
  hf

theorem adaptExcept {bad : ε' → σ → Prop} {g : ε → ε'} {x : EStateM ε σ α}
    (hx : Ends good (fun e s => bad (g e) s) (x s)) : Ends good bad (x.adaptExcept g s) := by
  unfold EStateM.adaptExcept
  cases hrun : x s with
  | ok a s' =>
    rw [hrun] at hx
    exact hx
  | error e s' =>
    rw [hrun] at hx
    exact hx

theorem of_ok {r : EStateM.Result ε σ α} {a : α} (h : Ends good bad r) (hr : r = .ok a s) : good a s := by
  rw [hr] at h
  exact h

theorem of_error {r : EStateM.Result ε σ α} {e : ε} (h : Ends good bad r) (hr : r = .error e s) : bad e s := by
  rw [hr] at h
  exact h

theorem mapM {good : α → β → Prop} {f : α → EStateM ε σ β}
    (hf : ∀ a s, Ends (fun b _ => good a b) (fun _ _ => True) (f a s)) (xs : List α) (s : σ) :
    Ends (fun bs _ => List.Forall₂ good xs bs) (fun _ _ => True) (xs.mapM f s) := by
  induction xs generalizing s with
  | nil => exact List.Forall₂.nil
  | cons x xs ih =>
    rw [List.mapM_cons]
    refine (hf x s).bind fun b s₁ hb => (ih s₁).bind fun bs s₂ hbs => ?_
    exact List.Forall₂.cons hb hbs

end Ends

/-- The operation ended in a state with the property, whether or not it failed. -/
abbrev EndsIn (p : σ → Prop) : EStateM.Result ε σ α → Prop :=
  Ends (fun _ => p) fun _ => p

theorem EndsIn.imp {p q : σ → Prop} {r : EStateM.Result ε σ α} (h : EndsIn p r) (hpq : ∀ s, p s → q s) : EndsIn q r :=
  h.mono (fun _ => hpq) fun _ => hpq

/-- The state that an operation left, whether or not it failed. -/
def endState : EStateM.Result ε σ α → σ
  | .ok _ s => s
  | .error _ s => s

theorem EndsIn.endState {p : σ → Prop} {r : EStateM.Result ε σ α} (h : EndsIn p r) : p (endState r) := by
  cases r <;> exact h

/-- The answer of an operation, or the error that it failed with. -/
def outcome : EStateM.Result ε σ α → Except ε α
  | .ok a _ => .ok a
  | .error e _ => .error e

theorem eq_ok_of_outcome {r : EStateM.Result ε σ α} {a : α} (hr : outcome r = .ok a) : r = .ok a (endState r) := by
  cases r with
  | ok b s =>
    cases hr
    rfl
  | error e s => cases hr

theorem eq_error_of_outcome {r : EStateM.Result ε σ α} {e : ε} (hr : outcome r = .error e) :
    r = .error e (endState r) := by
  cases r with
  | ok b s => cases hr
  | error e' s =>
    cases hr
    rfl

/-- The answer of an operation and the state after it, unless it failed. -/
def answer? : EStateM.Result ε σ α → Option (α × σ)
  | .ok a s => some (a, s)
  | .error _ _ => none

theorem answer?_eq_some_iff {r : EStateM.Result ε σ α} {a : α} {s : σ} : answer? r = some (a, s) ↔ r = .ok a s := by
  cases r <;> simp [answer?]

/-- The check passed with an answer that is good, or failed with an error that is bad. -/
def Passes (good : α → Prop) (bad : ε → Prop) : Except ε α → Prop
  | .ok a => good a
  | .error e => bad e

namespace Passes

variable {good good' : α → Prop} {bad bad' : ε → Prop}

theorem bind {next : β → Prop} {x : Except ε α} {f : α → Except ε β} (hx : Passes good bad x)
    (hf : ∀ a, good a → Passes next bad (f a)) : Passes next bad (x >>= f) := by
  cases x with
  | ok a => exact hf a hx
  | error e => exact hx

theorem mono {x : Except ε α} (h : Passes good bad x) (hgood : ∀ a, good a → good' a) :
    Passes good' bad x := by
  cases x with
  | ok a => exact hgood a h
  | error e => exact h

theorem and_bad {x : Except ε α} (h : Passes good bad x) (h' : Passes good' bad' x) : Passes good bad' x := by
  cases x with
  | ok a => exact h
  | error e => exact h'

theorem mapM {good : α → β → Prop} {xs : List α} {f : α → Except ε β} (hf : ∀ a ∈ xs, Passes (good a) bad (f a)) :
    Passes (fun bs => List.Forall₂ good xs bs) bad (xs.mapM f) := by
  induction xs with
  | nil => exact List.Forall₂.nil
  | cons x xs ih =>
    rw [List.mapM_cons]
    refine bind (hf x List.mem_cons_self) fun b hb => ?_
    refine bind (ih fun a ha => hf a (List.mem_cons_of_mem x ha)) fun bs hbs => ?_
    exact List.Forall₂.cons hb hbs

end Passes

end RefMachine
