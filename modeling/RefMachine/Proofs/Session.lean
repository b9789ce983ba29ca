import RefMachine.Proofs.Machine.Evaluate
import RefMachine.Proofs.Machine.Host

/-!
# Sessions

A session is a run of steps of a machine and its host: evaluations, and the operations by which the host makes, holds,
hands over and gives up values. Each step keeps the references accounted for (`HostStep.settles`), whatever the ledger,
so two things hold over whole sessions. A machine that is balanced stays balanced (`session_balanced`). A machine that is
safe stays safe, also when evaluations end with faults in between, and no program ever causes a fault that means
miscounted references (`evaluation_safe`).
-/

namespace RefMachine

/-- The operations that make an object of a kind, and the values that each takes over. -/
inductive Makes : Kind → Multiset Value → HeapM Handle → Prop where
  | string (text : String) : Makes .string 0 (Heap.newString text)
  | shared (text : String) : Makes .string 0 (Heap.internString text)
  | tuple (items : List Value) : Makes .tuple items (Heap.newTuple items)
  | cell (head : Value) (tail : Handle) : Makes .list {head, .ref .list tail} (Heap.cons head tail)
  | list (items : List Value) : Makes .list items (Heap.newList items)
  | expression (e : Expression) : Makes .expression 0 (Heap.newExpression e)

/-- A step of a session, from a machine and the values that its host holds to what they are afterwards. -/
inductive HostStep : Machine × Multiset Value → Machine × Multiset Value → Prop where
  | evaluate {m m' : Machine} {host : Multiset Value} {e : Expression} {v : Value}
    (hrun : Machine.evaluate e m = .ok v m') : HostStep (m, host) (m', v ::ₘ host)
  | release {m m' : Machine} {host : Multiset Value} {v : Value}
    (hrun : Machine.onHeap (Heap.release v) m = .ok () m') : HostStep (m, v ::ₘ host) (m', host)
  | retain {m m' : Machine} {host : Multiset Value} {v : Value} (hv : v ∈ host)
    (hrun : Machine.onHeap (Heap.retain v) m = .ok () m') : HostStep (m, host) (m', v ::ₘ host)
  /-- A value that is no counted handle is nobody's. -/
  | hold {m : Machine} {host : Multiset Value} {v : Value} (hv : ¬ v.Counted) : HostStep (m, host) (m, v ::ₘ host)
  | push (m : Machine) (host : Multiset Value) (v : Value) :
    HostStep (m, v ::ₘ host) ({ m with stack := v :: m.stack }, host)
  | pop {m : Machine} {host : Multiset Value} {v : Value} {rest : List Value} (hstack : m.stack = v :: rest) :
    HostStep (m, host) ({ m with stack := rest }, v ::ₘ host)
  | make {m m' : Machine} {host taken : Multiset Value} {k : Kind} {new : HeapM Handle} {v : Value}
    (hmakes : Makes k taken new) (hrun : Machine.onHeap (Heap.keep k new) m = .ok v m') :
    HostStep (m, taken + host) (m', v ::ₘ host)
  | pack {m m₁ m' : Machine} {host : Multiset Value} {arity : Nat} {h : Handle}
    (hpack : Machine.packTuple arity m = .ok h m₁)
    (hretain : Machine.onHeap (Heap.retain (.ref .tuple h)) m₁ = .ok () m') :
    HostStep (m, host) (m', .ref .tuple h ::ₘ host)
  | bind {m m' : Machine} {host : Multiset Value} {index : Nat} {v bound : Value} {mutability : Mutability}
    (hv : v ∈ host) (hrun : Machine.bindVariable index v mutability m = .ok bound m') : HostStep (m, host) (m', host)
  | resize {m m' : Machine} {host : Multiset Value} {names : VariableNames}
    (hrun : Machine.resizeScope names m = .ok () m') : HostStep (m, host) (m', host)
  | clear {m m' : Machine} {host : Multiset Value} (hrun : Machine.clearScope m = .ok () m') :
    HostStep (m, host) (m', host)
  | takeDiagnostics {m m' : Machine} {host : Multiset Value} {h : Handle}
    (hrun : Machine.takeDiagnostics m = .ok h m') : HostStep (m, host) (m', .ref .list h ::ₘ host)
  | register (m : Machine) (host : Multiset Value) (text : String) :
    HostStep (m, host) ({ m with literals := (m.literals.register text).2 }, host)

/-- Any number of steps. -/
abbrev Session : Machine × Multiset Value → Machine × Multiset Value → Prop :=
  Relation.ReflTransGen HostStep

/-- A step of a session in which evaluations may also end with faults. -/
inductive Attempt : Machine × Multiset Value → Machine × Multiset Value → Prop where
  | step {s s' : Machine × Multiset Value} (hstep : HostStep s s') : Attempt s s'
  | fault {m m' : Machine} {host : Multiset Value} {e : Expression} {f : Fault}
    (hrun : Machine.evaluate e m = .error f m') : Attempt (m, host) (m', host)

abbrev Attempts : Machine × Multiset Value → Machine × Multiset Value → Prop :=
  Relation.ReflTransGen Attempt

/-! ## One step -/

variable {m m' : Machine} {host host' : Multiset Value} {ledger : Ledger} {s s' : Machine × Multiset Value}

theorem Makes.made {k : Kind} {taken roots : Multiset Value} {new : HeapM Handle} {heap : Heap}
    (hmakes : Makes k taken new) (ha : heap.Accounts ledger (taken + roots)) :
    Ends (Heap.Accounts.Made Set.univ heap ledger roots k) (fun _ => heap.Lapses roots) (new heap) := by
  have hbad := ha.lapses_of_exhausted (Multiset.le_add_left roots taken)
  cases hmakes with
  | string text => exact Heap.Accounts.made_of_newString (by simpa using ha) text _
  | shared text =>
    exact (Heap.Accounts.made_of_internString (by simpa using ha) (Set.mem_univ text)).mono (fun _ _ hmade => hmade.1)
      hbad
  | tuple items => exact Heap.Accounts.made_of_newTuple ha _
  | cell head tail =>
    rw [Multiset.insert_eq_cons, Multiset.cons_add, Multiset.singleton_add] at ha
    exact (Heap.Accounts.made_of_cons ha _).mono (fun _ _ hmade => hmade.1) hbad
  | list items => exact Heap.Accounts.made_of_newList ha
  | expression e => exact Heap.Accounts.made_of_newExpression (by simpa using ha) e _

theorem Machine.roots_add (m : Machine) (taken host : Multiset Value) : m.roots (taken + host) = taken + m.roots host := by
  simp only [Machine.roots]
  abel

/-- A step of a session keeps the references accounted for, whatever the ledger, and closes no cycle. -/
theorem HostStep.settles (hstep : HostStep s s') (ha : s.1.Accounts ledger s.2) :
    Machine.Settles ledger s'.2 s.1 s'.1 := by
  cases hstep with
  | evaluate hrun =>
    obtain ⟨ha', -, he⟩ := (Machine.evaluate_ends_free ha _).of_ok hrun
    exact ⟨ha', he.heap.acyclic⟩
  | release hrun =>
    obtain ⟨m', hrun', ha', -, hheap⟩ := Machine.release_eq ha
    rw [hrun] at hrun'
    cases hrun'
    exact ⟨ha', hheap.acyclic⟩
  | @retain m m' host v hv hrun =>
    have hlive : m.heap.Live v := ha.live v (.inl (Machine.mem_roots.mpr (.inr (.inr hv))))
    exact (Machine.retain_ends (Heap.Accounts.excuse ha v) hlive).of_ok hrun
  | hold hv => exact ⟨ha.hold hv, id⟩
  | push m host v =>
    rw [Machine.Accounts, Machine.roots_cons] at ha
    refine ⟨?_, id⟩
    rw [Machine.Accounts, Machine.roots_of_stack rfl]
    exact ha
  | pop hstack =>
    rw [Machine.Accounts, Machine.roots_of_stack hstack] at ha
    refine ⟨?_, id⟩
    rw [Machine.Accounts, Machine.roots_cons]
    exact ha
  | make hmakes hrun =>
    rw [Machine.Accounts, Machine.roots_add] at ha
    exact (Machine.keep_ends (hmakes.made ha)).of_ok hrun
  | pack hpack hretain =>
    obtain ⟨hs, hlive⟩ := (Machine.packTuple_ends ha).of_ok hpack
    have hs' := (Machine.retain_ends hs.accounts hlive).of_ok hretain
    exact ⟨hs'.accounts, fun hacyclic => hs'.acyclic (hs.acyclic hacyclic)⟩
  | @bind m m' host index v bound mutability hv hrun =>
    have hlive : m.heap.Live v := ha.live v (.inl (Machine.mem_roots.mpr (.inr (.inr hv))))
    obtain ⟨ha', hbinds⟩ := (Machine.bindVariable_ends ha hlive index mutability).of_ok hrun
    have he : m.Evolves ∅ [] host m' := hbinds.evolves List.nil_suffix fun _ => Set.notMem_empty _
    exact ⟨ha', he.heap.acyclic⟩
  | resize hrun => exact ((Machine.resizeScope_ends ha).of_ok hrun).1
  | clear hrun =>
    obtain ⟨m', hrun', ha', -, -, hacyclic⟩ := Machine.clearScope_eq ha
    rw [hrun] at hrun'
    cases hrun'
    exact ⟨ha', hacyclic⟩
  | takeDiagnostics hrun => exact (Machine.takeDiagnostics_ends ha).of_ok hrun
  | register m host text => exact ⟨ha, id⟩

theorem Session.settles (hsession : Session s s') (ha : s.1.Accounts ledger s.2) :
    Machine.Settles ledger s'.2 s.1 s'.1 := by
  induction hsession with
  | refl => exact ⟨ha, id⟩
  | tail _ hstep ih =>
    have hs := hstep.settles ih.accounts
    exact ⟨hs.accounts, fun hacyclic => hs.acyclic (ih.acyclic hacyclic)⟩

/-! ## Whole sessions -/

/-- **Balance.** Over a whole session from a balanced machine, the count of every slot stays exactly the number of its
references on the stack, in the scope, with the host and in objects, and the live slots are those that are referred to.
So a value that the host holds can be released, and the scope cleared, at any time. -/
theorem session_balanced (hb : m.Balanced host) (hsession : Session (m, host) (m', host')) :
    m'.Balanced host' ∧
      (∀ e v m'', Machine.evaluate e m' = .ok v m'' → m''.Balanced (v ::ₘ host')) ∧
      (∀ v ∈ host', ∃ m'', Machine.onHeap (Heap.release v) m' = .ok () m'' ∧ m''.Balanced (host'.erase v)) ∧
      ∃ m'', Machine.clearScope m' = .ok () m'' ∧ m''.Balanced host' := by
  have ha : m'.Accounts .exact host' := (Session.settles hsession (Machine.balanced_iff.mp hb)).accounts
  refine ⟨Machine.balanced_iff.mpr ha, fun e v m'' hrun => ?_, fun v hv => ?_, ?_⟩
  · exact Machine.balanced_iff.mpr (HostStep.settles (.evaluate hrun) ha).accounts
  · rw [← Multiset.cons_erase hv] at ha
    obtain ⟨m'', hrun, ha', -⟩ := Machine.release_eq ha
    exact ⟨m'', hrun, Machine.balanced_iff.mpr ha'⟩
  · obtain ⟨m'', hrun, ha', -⟩ := Machine.clearScope_eq ha
    exact ⟨m'', hrun, Machine.balanced_iff.mpr ha'⟩

/-- A new machine that evaluates an expression for a tuple. -/
theorem session_balanced_tuple : ∃ v m',
    Machine.evaluate ⟨⟨0⟩, [.loadInteger 7, .newTuple 1]⟩ {} = .ok v m' ∧ v = .ref .tuple ⟨1⟩ ∧ m'.Balanced {v} := by
  obtain ⟨v, m', hrun, hv⟩ : ∃ v m',
      Machine.evaluate ⟨⟨0⟩, [.loadInteger 7, .newTuple 1]⟩ {} = .ok v m' ∧ v = .ref .tuple ⟨1⟩ := ⟨_, _, rfl, rfl⟩
  exact ⟨v, m', hrun, hv, (session_balanced (Machine.balanced_new {} {}) (.single (.evaluate hrun))).1⟩

/-! ## Safety -/

theorem Machine.Safe.accounts (hsafe : m.Safe host) : m.Accounts (m.heap.surplus (m.roots host)) host :=
  Heap.Safe.accounts hsafe

/-- How the evaluation of an expression may end in a safe machine: with a value of its own, or with a fault that the
program caused; the machine is safe in both cases. -/
def Machine.SafelyEvaluates (m : Machine) (host : Multiset Value) (e : Expression) : Prop :=
  (∃ v m', Machine.evaluate e m = .ok v m' ∧ m'.Safe (v ::ₘ host)) ∨
    ∃ f m', Machine.evaluate e m = .error f m' ∧ m.Admits f ∧ m'.Safe host

theorem Machine.Safe.evaluate (hsafe : m.Safe host) (e : Expression) : m.SafelyEvaluates host e := by
  have hends := Machine.evaluate_ends_free hsafe.accounts e
  cases hrun : Machine.evaluate e m with
  | ok v m' => exact .inl ⟨v, m', hrun, (hends.of_ok hrun).1.safe⟩
  | error f m' =>
    have hfaults := hends.of_error hrun
    exact .inr ⟨f, m', hrun, hfaults.admits, hfaults.safe⟩

/-- An attempt, also one that a fault ends, keeps what is held safe and closes no cycle. -/
theorem Attempt.lapses (hattempt : Attempt s s') (hsafe : s.1.Safe s.2) : Machine.Lapses s'.2 s.1 s'.1 := by
  cases hattempt with
  | step hstep =>
    have hs := hstep.settles hsafe.accounts
    exact ⟨hs.accounts.safe, hs.acyclic⟩
  | fault hrun =>
    have hfaults := (Machine.evaluate_ends_free hsafe.accounts _).of_error hrun
    exact ⟨hfaults.safe, hfaults.evolves.heap.acyclic⟩

theorem Attempt.safe (hattempt : Attempt s s') (hsafe : s.1.Safe s.2) : s'.1.Safe s'.2 :=
  (hattempt.lapses hsafe).safe

theorem Attempts.safe (hattempts : Attempts s s') (hsafe : s.1.Safe s.2) : s'.1.Safe s'.2 := by
  induction hattempts with
  | refl => exact hsafe
  | tail _ hattempt ih => exact hattempt.safe ih

/-- **Heap safety.** In a safe machine, and after any steps from it and any evaluations that ended with faults, an
expression evaluates to a value, or names a literal or a variable that there is not, or the heap has come to its end;
and the machine is safe again. So from a new machine no sequence of evaluations ever finds a dangling handle, a count of
zero to give up, or an empty stack. -/
theorem evaluation_safe (e : Expression) :
    (∀ m host m' host', m.Safe host → Attempts (m, host) (m', host') → m'.SafelyEvaluates host' e) ∧
      ∀ literals limits m' host' f m'', Attempts ({ literals := literals, limits := limits }, 0) (m', host') →
        Machine.evaluate e m' = .error f m'' →
        (∀ op, f ≠ .stackUnderflow op) ∧ ∀ k h, f ≠ .heap ⟨k, .dangling h⟩ ∧ f ≠ .heap ⟨k, .countUnderflow h⟩ := by
  refine ⟨fun m host m' host' hsafe hrun => (Attempts.safe hrun hsafe).evaluate e, ?_⟩
  intro literals limits m' host' f m'' hattempts hrun
  have hnew := Machine.balanced_iff.mp (Machine.balanced_new literals limits)
  have hsafe : m'.Safe host' := Attempts.safe hattempts hnew.safe
  have hadmits : m'.Admits f := ((Machine.evaluate_ends_free hsafe.accounts e).of_error hrun).admits
  refine ⟨?_, fun k h => ⟨?_, ?_⟩⟩
  · rintro op rfl
    exact hadmits
  · rintro rfl
    rcases hadmits with hfull | ⟨h', hoverflow⟩
    · exact nomatch hfull
    · exact nomatch hoverflow
  · rintro rfl
    rcases hadmits with hfull | ⟨h', hoverflow⟩
    · exact nomatch hfull
    · exact nomatch hoverflow

/-- A new machine whose first evaluation names a literal that there is not, with a tuple half made. -/
theorem evaluation_safe_after_fault : ∃ m',
    Machine.evaluate ⟨⟨0⟩, [.loadInteger 7, .newTuple 1, .loadString 0]⟩ {} = .error (.unknownLiteral 0) m' ∧
      m'.stack = [.ref .tuple ⟨1⟩] ∧ m'.SafelyEvaluates 0 ⟨⟨0⟩, [.loadInteger 8, .newTuple 1]⟩ := by
  obtain ⟨m', hrun, hstack⟩ : ∃ m',
      Machine.evaluate ⟨⟨0⟩, [.loadInteger 7, .newTuple 1, .loadString 0]⟩ {} = .error (.unknownLiteral 0) m' ∧
        m'.stack = [.ref .tuple ⟨1⟩] := ⟨_, rfl, rfl⟩
  have hnew := Machine.balanced_iff.mp (Machine.balanced_new {} {})
  exact ⟨m', hrun, hstack, (evaluation_safe _).1 _ _ _ _ hnew.safe (.single (.fault hrun))⟩

end RefMachine
