import RefMachine.Machine
import RefMachine.Proofs.Heap.Building
import RefMachine.Proofs.Heap.Calls

/-!
# Taking the diagnostics

The queue is taken as a list in the heap, the latest message first. `takeDiagnostics_moves_queue`: if there is room for a
string, a tuple and a cell for each diagnostic, the queue is empty afterwards, the list shows its messages, all objects of
the list are new and have one reference each, and nothing else has changed. If there is not, one of the stores is full.
Giving up the list leaves every slot as it was.

Each message costs three objects, and each of them takes over the only reference to the one before it. So whatever part
of the queue has been moved (`Filed`), giving up the list gives up all of it.
-/

namespace RefMachine

/-- A message in the heap: a string in a tuple in the cell of a list. -/
structure Notice where
  cell : Handle
  tuple : Handle
  text : Handle
  message : String

namespace Notice

/-- The objects of a message, the latest first. -/
def objects (n : Notice) : List Value :=
  [.ref .list n.cell, .ref .tuple n.tuple, .ref .string n.text]

/-- The tuple of the message holds one string, and that is its text. -/
structure StandsIn (n : Notice) (heap : Heap) : Prop where
  tuple_eq : heap.get? .tuple n.tuple = some [.ref .string n.text]
  text_eq : heap.get? .string n.text = some n.message

theorem StandsIn.mono {n : Notice} {heap heap' : Heap} (hn : n.StandsIn heap) (hext : heap.Extends heap') :
    n.StandsIn heap' :=
  ⟨hext _ _ _ hn.tuple_eq, hext _ _ _ hn.text_eq⟩

end Notice

namespace Heap

variable {heap heap' origin : Heap} {list : Handle} {notices : List Notice} {message : String} {messages : List String}

/-- The list shows the messages. Its objects are new, and each has one reference. -/
structure Shows (heap : Heap) (list : Handle) (notices : List Notice) (heap' : Heap) : Prop where
  chain : heap'.Chain list (notices.map Notice.cell) (notices.map fun n => .ref .tuple n.tuple)
  messages : ∀ n ∈ notices, n.StandsIn heap'
  makes : heap.Makes (notices.flatMap Notice.objects) heap'

/-- The list shows the messages and can be given up. -/
structure Filed (heap : Heap) (list : Handle) (notices : List Notice) (heap' : Heap) : Prop where
  wellFormed : heap'.WellFormed
  shows : heap.Shows list notices heap'
  owes : heap'.Owes [.ref .list list] heap

theorem filed_nil (hw : heap.WellFormed) : heap.Filed .sentinel [] heap where
  wellFormed := hw
  shows := ⟨.nil, fun _ hn => absurd hn List.not_mem_nil, .refl heap⟩
  owes := (owes_nil (.refl heap)).cons Value.not_counted_emptyList

/-- The strings, tuples and cells have room for so many messages. -/
def HasRoomFor (heap : Heap) (n : Nat) : Prop :=
  ∀ k ≠ Kind.expression, n ≤ heap.room k

section Keeping

variable {heap₁ heap₂ heap₃ heap₄ heap₅ heap₆ : Heap} {text tuple cell : Handle}
  (hk₂ : heap.Kept .string message text heap₁ heap₂) (hk₄ : heap₂.Kept .tuple [.ref .string text] tuple heap₃ heap₄)
  (hk₆ : heap₄.Kept .list ⟨.ref .tuple tuple, list⟩ cell heap₅ heap₆)

include hk₂ hk₄ hk₆

theorem Filed.consMessage_eq (hf : origin.Filed list notices heap) :
    Machine.consMessage message list heap = .ok cell heap₆ := by
  have hchain := (hf.shows.chain.mono hk₂.extension).mono hk₄.extension
  rw [Machine.consMessage]
  refine (hk₂.bind_apply rfl _).trans ((hk₄.bind_apply rfl _).trans ?_)
  exact hk₆.bind_apply (hchain.cons_eq hk₄.wellFormed _) _

theorem Filed.cons (hf : origin.Filed list notices heap) :
    origin.Filed cell (⟨cell, tuple, text, message⟩ :: notices) heap₆ where
  wellFormed := hk₆.wellFormed
  shows := by
    have hext : heap.Extends heap₆ := fun k h x hget =>
      hk₆.extension k h x (hk₄.extension k h x (hk₂.extension k h x hget))
    have hnew : Notice.StandsIn ⟨cell, tuple, text, message⟩ heap₄ :=
      ⟨hk₄.retained.get?_self, hk₄.extension _ _ _ hk₂.retained.get?_self⟩
    refine ⟨.cons hk₆.counted hk₆.retained.get?_self (hf.shows.chain.mono hext), fun n hn => ?_, ?_⟩
    · rcases List.mem_cons.mp hn with rfl | hn
      · exact hnew.mono hk₆.extension
      · exact (hf.shows.messages n hn).mono hext
    · exact ((hf.shows.makes.keep hk₂).keep hk₄).keep hk₆
  owes := by
    have howes₂ : heap₂.Owes [.ref .string text] heap := hk₂.owes hf.wellFormed (owes_nil (.refl heap))
    have howes₄ : heap₄.Owes [.ref .tuple tuple] heap := hk₄.owes hk₂.wellFormed howes₂
    exact hk₆.owes hk₄.wellFormed (howes₄.trans hf.owes)

theorem room_of_message {k : Kind} (hk : k ≠ .expression) : heap₆.room k + 1 = heap.room k := by
  cases k with
  | string => rw [← hk₂.room_self, hk₆.room_of_ne (by decide), hk₄.room_of_ne (by decide)]
  | tuple => rw [hk₆.room_of_ne (by decide), hk₄.room_self, hk₂.room_of_ne (by decide)]
  | list => rw [hk₆.room_self, hk₄.room_of_ne (by decide), hk₂.room_of_ne (by decide)]
  | expression => exact absurd rfl hk

end Keeping

theorem Filed.consMessage (hf : origin.Filed list notices heap) (hroom : heap.HasRoomFor 1) (message : String) :
    ∃ n heap', Machine.consMessage message list heap = .ok n.cell heap' ∧ n.message = message ∧
      origin.Filed n.cell (n :: notices) heap' ∧ ∀ k ≠ Kind.expression, heap'.room k + 1 = heap.room k := by
  obtain ⟨text, heap₁, heap₂, hk₂⟩ := exists_kept hf.wellFormed (hroom .string (by decide)) (k := .string) message
  have htuple : 0 < heap₂.room .tuple := by
    rw [hk₂.room_of_ne (by decide)]
    exact hroom .tuple (by decide)
  obtain ⟨tuple, heap₃, heap₄, hk₄⟩ := exists_kept hk₂.wellFormed htuple (k := .tuple) [.ref .string text]
  have hlist : 0 < heap₄.room .list := by
    rw [hk₄.room_of_ne (by decide), hk₂.room_of_ne (by decide)]
    exact hroom .list (by decide)
  obtain ⟨cell, heap₅, heap₆, hk₆⟩ := exists_kept hk₄.wellFormed hlist (k := .list) ⟨.ref .tuple tuple, list⟩
  exact ⟨⟨cell, tuple, text, message⟩, heap₆, hf.consMessage_eq hk₂ hk₄ hk₆, rfl, hf.cons hk₂ hk₄ hk₆,
    fun _ => room_of_message hk₂ hk₄ hk₆⟩

theorem Filed.consMessage_of_no_room (hf : origin.Filed list notices heap) (hroom : ¬ heap.HasRoomFor 1)
    (message : String) : ∃ k heap', Machine.consMessage message list heap = .error ⟨k, .full⟩ heap' := by
  rw [Machine.consMessage]
  by_cases hstring : heap.room .string = 0
  · exact ⟨.string, heap, bind_apply_of_error (insert_of_no_room hstring message) _⟩
  obtain ⟨text, heap₁, heap₂, hk₂⟩ := exists_kept hf.wellFormed (Nat.pos_of_ne_zero hstring) (k := .string) message
  by_cases htuple : heap₂.room .tuple = 0
  · exact ⟨.tuple, heap₂, (hk₂.bind_apply rfl _).trans (bind_apply_of_error (insert_of_no_room htuple _) _)⟩
  obtain ⟨tuple, heap₃, heap₄, hk₄⟩ :=
    exists_kept hk₂.wellFormed (Nat.pos_of_ne_zero htuple) (k := .tuple) [.ref .string text]
  have hlist : heap₄.room .list = 0 := by
    by_contra hlist
    rw [hk₂.room_of_ne (by decide)] at htuple
    rw [hk₄.room_of_ne (by decide), hk₂.room_of_ne (by decide)] at hlist
    refine hroom fun k hk => Nat.pos_of_ne_zero ?_
    cases k with
    | string => exact hstring
    | tuple => exact htuple
    | list => exact hlist
    | expression => exact absurd rfl hk
  have hchain : heap₄.Chain list _ _ := (hf.shows.chain.mono hk₂.extension).mono hk₄.extension
  refine ⟨.list, heap₄, (hk₂.bind_apply rfl _).trans ((hk₄.bind_apply rfl _).trans (bind_apply_of_error ?_ _))⟩
  exact (hchain.cons_eq hk₄.wellFormed _).trans (insert_of_no_room hlist _)

/-! ## All messages -/

/-- Puts a cell for each message in front of the list, one after the other. -/
def consMessages (messages : List String) (list : Handle) : HeapM Handle :=
  messages.foldlM (fun list message => Machine.consMessage message list) list

theorem Tableless.consMessages (messages : List String) (list : Handle) :
    Tableless (Heap.consMessages messages list) := by
  unfold Heap.consMessages
  induction messages generalizing list with
  | nil => exact .pure list
  | cons message rest ih =>
    rw [List.foldlM_cons]
    refine bind ?_ ih
    exact (insert _).bind fun _ => (retain _).bind fun _ => (insert _).bind fun _ => (retain _).bind fun _ =>
      (cons _ _).bind fun _ => (retain _).bind fun _ => .pure _

theorem Filed.consMessages (hf : origin.Filed list notices heap) (hroom : heap.HasRoomFor messages.length) :
    ∃ list' heap' notices', Heap.consMessages messages list heap = .ok list' heap' ∧
      origin.Filed list' notices' heap' ∧
      notices'.map Notice.message = messages.reverse ++ notices.map Notice.message := by
  induction messages generalizing list notices heap with
  | nil => exact ⟨list, heap, notices, rfl, hf, rfl⟩
  | cons message rest ih =>
    have hone : heap.HasRoomFor 1 := fun k hk => Nat.le_trans (Nat.le_add_left 1 _) (hroom k hk)
    obtain ⟨n, heap₁, hrun, rfl, hf₁, hless⟩ := hf.consMessage hone message
    have hrest : heap₁.HasRoomFor rest.length := fun k hk =>
      Nat.le_of_succ_le_succ ((hroom k hk).trans_eq (hless k hk).symm)
    obtain ⟨list', heap', notices', hrun', hf', hmessages⟩ := ih hf₁ hrest
    refine ⟨list', heap', notices', ?_, hf', ?_⟩
    · rw [Heap.consMessages, List.foldlM_cons, bind_apply_of_ok hrun]
      exact hrun'
    · rw [hmessages, List.map_cons, List.reverse_cons, List.append_assoc, List.singleton_append]

theorem Filed.consMessages_of_no_room (hf : origin.Filed list notices heap)
    (hroom : ¬ heap.HasRoomFor messages.length) :
    ∃ k heap', Heap.consMessages messages list heap = .error ⟨k, .full⟩ heap' := by
  induction messages generalizing list notices heap with
  | nil => exact absurd (fun k _ => Nat.zero_le _) hroom
  | cons message rest ih =>
    rw [Heap.consMessages, List.foldlM_cons]
    by_cases hone : heap.HasRoomFor 1
    · obtain ⟨n, heap₁, hrun, -, hf₁, hless⟩ := hf.consMessage hone message
      rw [bind_apply_of_ok hrun]
      refine ih hf₁ fun hrest => hroom fun k hk => ?_
      rw [List.length_cons, ← hless k hk]
      exact Nat.succ_le_succ (hrest k hk)
    · obtain ⟨k, heap', hrun⟩ := hf.consMessage_of_no_room hone message
      exact ⟨k, heap', bind_apply_of_error hrun _⟩

theorem Shows.of_sameStores {origin' : Heap} (h : origin.Shows list notices heap) (hs₀ : origin.SameStores origin')
    (hs : heap.SameStores heap') : origin'.Shows list notices heap' where
  chain := h.chain.mono hs.extension
  messages n hn := (h.messages n hn).mono hs.extension
  makes := ⟨h.makes.gains.of_sameStores hs₀ hs, fun v hv => (hs.refCount?_eq v).trans (h.makes.refCount?_eq v hv)⟩

end Heap

namespace Machine

variable {m : Machine}

/-- `moveDiagnostics` puts the messages of the queue in front of the list, and fails where that fails. -/
theorem moveDiagnostics_ends_as {queue : List Diagnostic} (hqueue : m.diagnostics = queue) (list : Handle) :
    Ends (fun h heap' => moveDiagnostics queue list m = .ok h { m with heap := heap', diagnostics := [] })
      (fun e _ => ∃ m', moveDiagnostics queue list m = .error e m')
      (Heap.consMessages (queue.map Diagnostic.message) list m.heap) := by
  induction queue generalizing list m with
  | nil =>
    change EStateM.Result.ok list m = .ok list { m with diagnostics := [] }
    rw [← hqueue]
  | cons d rest ih =>
    rw [List.map_cons, Heap.consMessages, List.foldlM_cons]
    cases hone : consMessage d.message list m.heap with
    | ok cell heap₁ =>
      have hstep : moveDiagnostics (d :: rest) list m =
          moveDiagnostics rest cell { m with heap := heap₁, diagnostics := rest } := by
        have hheap : onHeap (consMessage d.message list) { m with diagnostics := rest } =
            .ok cell { m with heap := heap₁, diagnostics := rest } := by
          rw [onHeap_eq, hone]
        exact bind_apply_of_ok hheap _
      rw [bind_apply_of_ok hone, hstep]
      exact ih (m := { m with heap := heap₁, diagnostics := rest }) rfl cell
    | error e heap₁ =>
      rw [bind_apply_of_error hone]
      have hheap : onHeap (consMessage d.message list) { m with diagnostics := rest } =
          .error e { m with heap := heap₁, diagnostics := rest } := by
        rw [onHeap_eq, hone]
      exact ⟨_, bind_apply_of_error hheap _⟩

/-- **Taking the diagnostics.** If there is no room for the messages, a store ends up full. Otherwise `takeDiagnostics`
empties the queue into a list of its messages, the latest first, in new objects with one reference each, and nothing
else in the heap changes. Giving up the list leaves every slot with the contents and the count that it had. An empty
queue is the empty list. -/
theorem takeDiagnostics_moves_queue {m : Machine} (hstores : ∀ k, (m.heap.store k).WellFormed k.sentinel?) :
    (¬ m.heap.HasRoomFor m.diagnostics.length → ∃ k m', takeDiagnostics m = .error ⟨k, .full⟩ m') ∧
      (m.heap.HasRoomFor m.diagnostics.length → ∃ list heap' notices,
        takeDiagnostics m = .ok list { m with heap := heap', diagnostics := [] } ∧
        notices.map Notice.message = m.diagnostics.reverse.map Diagnostic.message ∧
        m.heap.Shows list notices heap' ∧
        ∃ heap₁, Heap.release (.ref .list list) heap' = .ok () heap₁ ∧ m.heap.SameObjects heap₁ ∧
          ∀ v, heap₁.counted v = m.heap.counted v) ∧
      (m.diagnostics = [] → takeDiagnostics m = .ok .sentinel m) := by
  have hs := m.heap.sameStores_unshared
  have hf := Heap.filed_nil (Heap.wellFormed_unshared hstores)
  have htake : takeDiagnostics m = moveDiagnostics m.diagnostics .sentinel m := rfl
  have hends := moveDiagnostics_ends_as (m := m) rfl .sentinel
  have hroom_iff : m.heap.HasRoomFor m.diagnostics.length ↔
      m.heap.unshared.HasRoomFor (m.diagnostics.map Diagnostic.message).length := by
    rw [List.length_map]
    exact forall₂_congr fun k _ => by rw [hs.room_eq]
  rw [htake, hroom_iff]
  refine ⟨fun hroom => ?_, fun hroom => ?_, fun hempty => ?_⟩
  · obtain ⟨k, heap', hrun⟩ := hf.consMessages_of_no_room hroom
    obtain ⟨heap₁, hrun₁, -⟩ := (Heap.Tableless.consMessages _ _).error hs hrun
    exact ⟨k, hends.of_error hrun₁⟩
  · obtain ⟨list, heap', notices, hrun, hf', hmessages⟩ := hf.consMessages hroom
    obtain ⟨heap₁, hrun₁, hs₁⟩ := (Heap.Tableless.consMessages _ _).ok hs hrun
    refine ⟨list, heap₁, notices, hends.of_ok hrun₁, ?_, hf'.shows.of_sameStores hs hs₁, ?_⟩
    · rw [hmessages, List.map_nil, List.append_nil, List.map_reverse]
    · exact hf'.owes.release_of_sameStores hs hs₁ hf'.wellFormed
  · rw [hempty]
    rfl

/-- Two diagnostics wait, and a string, a tuple and a cell have been released before. -/
def recycledQueue : Machine where
  heap := Heap.ofCalls [.newString "old", .retain (.ref .string ⟨0⟩), .newTuple [.ref .string ⟨0⟩],
    .retain (.ref .tuple ⟨1⟩), .newList [.ref .tuple ⟨1⟩], .retain (.ref .list ⟨1⟩), .newString "kept",
    .release (.ref .list ⟨1⟩)]
  diagnostics := [.emptyList, .unsetVariable 3]

/-- The released slots are filled again, and are released with the list. -/
theorem takeDiagnostics_moves_queue_recycled :
    recycledQueue.heap.strings.free.toList = [⟨0⟩] ∧ recycledQueue.heap.HasRoomFor 2 ∧
      ∃ list heap' notices,
        takeDiagnostics recycledQueue = .ok list { recycledQueue with heap := heap', diagnostics := [] } ∧
        notices.map Notice.message = ["Variable 3 has not been assigned.", "The empty list has no head or tail."] ∧
        recycledQueue.heap.Shows list notices heap' ∧
        ∃ heap₁, Heap.release (.ref .list list) heap' = .ok () heap₁ ∧ recycledQueue.heap.SameObjects heap₁ ∧
          ∀ v, heap₁.counted v = recycledQueue.heap.counted v := by
  have hw : recycledQueue.heap.WellFormed := Heap.wellFormed_ofCalls _
  have hsize : ∀ k, (recycledQueue.heap.store k).slots.size ≤ 2 := by
    intro k
    cases k <;> decide +kernel
  have hroom : recycledQueue.heap.HasRoomFor 2 := by
    intro k _
    have hword : 4 ≤ UInt32.size := by decide
    have hrow := hsize k
    rw [Heap.room, Store.room]
    omega
  obtain ⟨list, heap', notices, hrun, hmessages, hshows, hback⟩ := (takeDiagnostics_moves_queue hw.store).2.1 hroom
  exact ⟨by decide +kernel, hroom, list, heap', notices, hrun, hmessages, hshows, hback⟩

end Machine

end RefMachine
