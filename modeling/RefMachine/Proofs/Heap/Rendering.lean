import RefMachine.Heap.Dump
import RefMachine.Proofs.Heap.Unfold
import Mathlib.Data.Finset.Card

/-!
# The text of a value that unfolds

`Tree.text` writes a tree, and `Displays heap v s` says that writing `v` out, following every handle, comes to an end
with the text `s`. Where there is no object it writes kind and slot, and nothing bounds how far it follows.

A value that unfolds to a tree is displayed, and only as the text of the tree (`Unfolds.displays_iff`). The bounded
function `Heap.text` yields that text as well (`Unfolds.text_eq`), because its bounds are wide enough: the cells of a
list are as many different slots (`Unfolds.length_le`), and so are the tuples and lists on a way down into a value
(`Unfolds.height_le`), since what two different trees unfold from are two different values.
-/

namespace RefMachine

namespace Tree

mutual

/-- The text of a tree. What is no object is written as the value that it is. -/
def text : Tree → String
  | error => Value.text .error
  | boolean b => Value.text (.boolean b)
  | integer n => Value.text (.integer n)
  | float bits => Value.text (.float bits)
  | type tag => Value.text (.type tag)
  | opcode op => Value.text (.opcode op)
  | string text => quoted text
  | tuple items => "(" ++ ",".intercalate (texts items) ++ ")"
  | list items => "[" ++ ",".intercalate (texts items) ++ "]"
  | expression e => e.text

def texts : List Tree → List String
  | [] => []
  | t :: ts => t.text :: texts ts

end

/-- What a tuple or a list holds. -/
def parts : Tree → List Tree
  | tuple items => items
  | list items => items
  | _ => []

mutual

/-- How deep the objects of a tree are nested. -/
def height : Tree → Nat
  | string _ => 1
  | expression _ => 1
  | tuple items => tallest items + 1
  | list items => tallest items + 1
  | _ => 0

def tallest : List Tree → Nat
  | [] => 0
  | t :: ts => max t.height (tallest ts)

end

theorem texts_eq_map (ts : List Tree) : texts ts = ts.map text := by
  induction ts with
  | nil => rfl
  | cons t ts ih => rw [texts, ih, List.map_cons]

theorem exists_of_lt_tallest {n : Nat} {ts : List Tree} (hn : n < tallest ts) : ∃ t ∈ ts, n < t.height := by
  induction ts with
  | nil => simp [tallest] at hn
  | cons s ts ih =>
    rw [tallest] at hn
    rcases lt_max_iff.mp hn with hs | hts
    · exact ⟨s, List.mem_cons_self, hs⟩
    · obtain ⟨t, ht, hlt⟩ := ih hts
      exact ⟨t, List.mem_cons_of_mem s ht, hlt⟩

end Tree

theorem Value.height_of_tree? {v : Value} {t : Tree} (htree : v.tree? = some t) : t.height = 0 := by
  cases v <;> cases htree <;> rfl

theorem Value.text_of_tree? {v : Value} {t : Tree} (htree : v.tree? = some t) : v.text = t.text := by
  cases v <;> cases htree <;> rfl

namespace Heap

variable {heap : Heap} {v : Value} {t : Tree} {h rest : Handle} {items : List Value} {trees : List Tree}

/-! ## Following a list -/

/-- The items of a list from cell to cell, and the handle behind the last: the empty list, or one to no cell. -/
inductive Links (heap : Heap) : Handle → List Value → Handle → Prop where
  | sentinel : Links heap .sentinel [] .sentinel
  | dangling {h : Handle} (hsentinel : h.isSentinel = false) (hget : heap.get? .list h = none) : Links heap h [] h
  | cell {h tail rest : Handle} {head : Value} {items : List Value} (hsentinel : h.isSentinel = false)
    (hget : heap.get? .list h = some ⟨head, tail⟩) (htail : Links heap tail items rest) :
    Links heap h (head :: items) rest

theorem Links.functional {items' : List Value} {rest' : Handle} (hlinks : heap.Links h items rest)
    (hlinks' : heap.Links h items' rest') : items = items' ∧ rest = rest' := by
  induction hlinks generalizing items' rest' with
  | sentinel =>
    cases hlinks' with
    | sentinel => exact ⟨rfl, rfl⟩
    | dangling hsentinel | cell hsentinel => exact absurd hsentinel (by decide)
  | dangling hsentinel hget =>
    cases hlinks' with
    | sentinel => exact absurd hsentinel (by decide)
    | dangling => exact ⟨rfl, rfl⟩
    | cell _ hget' => simp [hget] at hget'
  | cell hsentinel hget _ ih =>
    cases hlinks' with
    | sentinel => exact absurd hsentinel (by decide)
    | dangling _ hget' => simp [hget] at hget'
    | cell _ hget' htail' =>
      cases hget.symm.trans hget'
      obtain ⟨rfl, rfl⟩ := ih htail'
      exact ⟨rfl, rfl⟩

theorem Links.walk_eq (hlinks : heap.Links h items rest) {steps : Nat} (hsteps : items.length ≤ steps)
    (done : List Value) : heap.walk steps done h = (done.reverse ++ items, rest) := by
  induction hlinks generalizing steps done with
  | sentinel =>
    rw [List.append_nil]
    cases steps with
    | zero => rfl
    | succ steps => rfl
  | dangling hsentinel hget =>
    rw [List.append_nil]
    cases steps with
    | zero => rfl
    | succ steps =>
      have hget' : heap.lists.get? _ = none := hget
      simp [walk, hsentinel, hget']
  | @cell h tail rest head items hsentinel hget _ ih =>
    obtain ⟨steps, rfl⟩ := Nat.exists_eq_add_of_le' (Nat.one_le_of_lt hsteps)
    have hget' : heap.lists.get? h = some ⟨head, tail⟩ := hget
    have hwalk := ih (Nat.le_of_succ_le_succ hsteps) (head :: done)
    simp [walk, hsentinel, hget', hwalk]

/-- Induction on an unfolding that takes a list with all its items at once, and not cell by cell. -/
theorem Unfolds.induction_items {motive : Value → Tree → Prop}
    (atom : ∀ v t, v.tree? = some t → motive v t)
    (string : ∀ h text, heap.get? .string h = some text → motive (.ref .string h) (.string text))
    (tuple : ∀ h items trees, heap.get? .tuple h = some items → List.Forall₂ motive items trees →
      motive (.ref .tuple h) (.tuple trees))
    (list : ∀ h items trees, heap.Links h items .sentinel → heap.Unfolds (.ref .list h) (.list trees) →
      List.Forall₂ motive items trees → motive (.ref .list h) (.list trees))
    (expression : ∀ h e, heap.get? .expression h = some e → motive (.ref .expression h) (.expression e))
    (hv : heap.Unfolds v t) : motive v t := by
  -- A cell needs more of its tail than the motive: the items from there on.
  suffices hboth : motive v t ∧ ∀ h trees, v = .ref .list h → t = .list trees →
      ∃ items, heap.Links h items .sentinel ∧ List.Forall₂ motive items trees from hboth.1
  induction hv with
  | atom htree =>
    refine ⟨atom _ _ htree, ?_⟩
    rintro h trees rfl
    cases htree
  | string hget =>
    refine ⟨string _ _ hget, ?_⟩
    rintro h trees ⟨⟩
  | tuple hget hlength _ ih =>
    have hmotive := List.forall₂_iff_get.mpr ⟨hlength, fun i hi hi' => (ih i hi hi').1⟩
    refine ⟨tuple _ _ _ hget hmotive, ?_⟩
    rintro h trees ⟨⟩
  | nil =>
    refine ⟨list _ _ _ .sentinel .nil .nil, ?_⟩
    rintro h trees ⟨⟩ ⟨⟩
    exact ⟨[], .sentinel, .nil⟩
  | cell hsentinel hget hhead htail ihhead ihtail =>
    obtain ⟨items, hlinks, hitems⟩ := ihtail.2 _ _ rfl rfl
    have hlinks' := Links.cell hsentinel hget hlinks
    have hmotive := List.Forall₂.cons ihhead.1 hitems
    refine ⟨list _ _ _ hlinks' (.cell hsentinel hget hhead htail) hmotive, ?_⟩
    rintro h trees ⟨⟩ ⟨⟩
    exact ⟨_, hlinks', hmotive⟩
  | expression hget =>
    refine ⟨expression _ _ hget, ?_⟩
    rintro h trees ⟨⟩

/-! ## Bounds -/

/-- The handles to the slots of a kind. -/
def places (heap : Heap) (k : Kind) : Finset Value :=
  (Finset.range (heap.store k).slots.size).image fun i => .ref k ⟨i.toUInt32⟩

theorem card_places_le (heap : Heap) (k : Kind) : (heap.places k).card ≤ (heap.store k).slots.size := by
  have hcard := @Finset.card_image_le _ _ (Finset.range (heap.store k).slots.size)
    (fun i => Value.ref k ⟨i.toUInt32⟩) _
  rwa [Finset.card_range] at hcard

theorem mem_places {k : Kind} {x : k.Content} (hget : heap.get? k h = some x) : .ref k h ∈ heap.places k := by
  obtain ⟨count, hslot⟩ := Store.slot?_of_get? hget
  obtain ⟨hlt, -⟩ := Array.getElem?_eq_some_iff.mp hslot
  refine Finset.mem_image.mpr ⟨h.index, Finset.mem_range.mpr hlt, ?_⟩
  rw [Handle.index_inj.mp (Handle.index_toUInt32 h.index_lt)]

/-- If for each of `n` consecutive measures a tree of that measure unfolds from one of the `places`, there are at least
`n` of them. -/
theorem le_card_of_unfolds (measure : Tree → Nat) {n first : Nat} {places : Finset Value}
    (hlevels : ∀ i < n, ∃ v ∈ places, ∃ t, heap.Unfolds v t ∧ measure t = first + i) : n ≤ places.card := by
  have hvalue : Nonempty Value := ⟨.error⟩
  have htree : Nonempty Tree := ⟨.error⟩
  choose! f hmem t hunfolds hmeasure using hlevels
  refine Finset.le_card_of_inj_on_range f hmem fun i hi j hj heq => ?_
  have hsame : t i = t j := (hunfolds i hi).functional (heq ▸ hunfolds j hj)
  have hi' := hmeasure i hi
  rw [hsame, hmeasure j hj] at hi'
  omega

namespace Unfolds

theorem exists_cell (hv : heap.Unfolds (.ref .list h) (.list trees)) {i : Nat} (hi : i < trees.length) :
    ∃ w ∈ heap.places .list, ∃ t, heap.Unfolds w t ∧ t.parts.length = 1 + i := by
  induction trees generalizing h with
  | nil => simp at hi
  | cons tree trees ih =>
    cases hv with
    | atom htree => cases htree
    | cell hsentinel hget hhead htail =>
      rcases Nat.lt_succ_iff_lt_or_eq.mp hi with hlt | rfl
      · exact ih htail hlt
      · exact ⟨_, mem_places hget, _, .cell hsentinel hget hhead htail, Nat.add_comm _ _⟩

/-- A list unfolds to no more items than its store has slots. -/
theorem length_le (hv : heap.Unfolds (.ref .list h) (.list trees)) : trees.length ≤ heap.lists.slots.size := by
  have hcard : trees.length ≤ (heap.places .list).card :=
    le_card_of_unfolds (fun t => t.parts.length) fun i hi => hv.exists_cell hi
  exact hcard.trans (heap.card_places_le .list)

theorem exists_container (hv : heap.Unfolds v t) {i : Nat} (hi : 2 + i ≤ t.height) :
    ∃ w ∈ heap.places .tuple ∪ heap.places .list, ∃ t', heap.Unfolds w t' ∧ t'.height = 2 + i := by
  induction hv with
  | atom htree =>
    rw [Value.height_of_tree? htree] at hi
    omega
  | string | expression | nil =>
    simp only [Tree.height, Tree.tallest] at hi
    omega
  | @tuple h items trees hget hlength hitems ih =>
    rcases Nat.lt_or_eq_of_le hi with hlt | heq
    · rw [Tree.height] at hlt
      have hbelow : 1 + i < Tree.tallest trees := by omega
      obtain ⟨tree, hmem, htree⟩ := Tree.exists_of_lt_tallest hbelow
      obtain ⟨j, hj, rfl⟩ := List.mem_iff_getElem.mp hmem
      have hchild : 2 + i ≤ trees[j].height := by omega
      exact ih j (hlength ▸ hj) hj hchild
    · exact ⟨_, Finset.mem_union_left _ (mem_places hget), _, .tuple hget hlength hitems, heq.symm⟩
  | @cell h tail head tree trees hsentinel hget hhead htail ihhead ihtail =>
    rcases Nat.lt_or_eq_of_le hi with hlt | heq
    · rw [Tree.height, Tree.tallest] at hlt
      rcases le_max_iff.mp (Nat.le_of_lt_succ hlt) with hle | hle
      · exact ihhead hle
      · exact ihtail (hle.trans (Nat.le_succ _))
    · exact ⟨_, Finset.mem_union_right _ (mem_places hget), _, .cell hsentinel hget hhead htail, heq.symm⟩

/-- A tree is no higher than there are slots for tuples and cells, and one more for what stands innermost. -/
theorem height_le (hv : heap.Unfolds v t) : t.height ≤ heap.tuples.slots.size + heap.lists.slots.size + 1 := by
  have hcard : t.height - 1 ≤ (heap.places .tuple ∪ heap.places .list).card :=
    le_card_of_unfolds Tree.height fun i hi => hv.exists_container (by omega)
  have hunion := Finset.card_union_le (heap.places .tuple) (heap.places .list)
  have htuples : (heap.places .tuple).card ≤ heap.tuples.slots.size := heap.card_places_le .tuple
  have hlists : (heap.places .list).card ≤ heap.lists.slots.size := heap.card_places_le .list
  omega

end Unfolds

/-! ## The bounded text -/

theorem map_textWithin {depth : Nat} (hitems : List.Forall₂ (fun v t => ∀ depth, t.height ≤ depth →
      heap.textWithin depth v = t.text) items trees) (hle : Tree.tallest trees ≤ depth) :
    items.map (heap.textWithin depth) = Tree.texts trees := by
  induction hitems with
  | nil => rfl
  | cons hv _ ih =>
    rw [Tree.tallest, max_le_iff] at hle
    rw [List.map_cons, hv depth hle.1, ih hle.2, Tree.texts]

theorem Unfolds.textWithin_eq (hv : heap.Unfolds v t) {depth : Nat} (hdepth : t.height ≤ depth) :
    heap.textWithin depth v = t.text := by
  refine Unfolds.induction_items (motive := fun v t => ∀ depth, t.height ≤ depth → heap.textWithin depth v = t.text)
    ?atom ?string ?tuple ?list ?expression hv depth hdepth
  case atom =>
    intro v t htree depth _
    rw [← Value.text_of_tree? htree]
    cases depth <;> cases v <;> first | rfl | cases htree
  case string =>
    intro h text hget depth hdepth
    obtain ⟨depth, rfl⟩ := Nat.exists_eq_add_of_le' (Nat.one_le_of_lt hdepth)
    have hget' : heap.strings.get? h = some text := hget
    simp only [textWithin, hget', Option.map_some, Option.getD_some, Tree.text]
  case tuple =>
    intro h items trees hget hitems depth hdepth
    obtain ⟨depth, rfl⟩ := Nat.exists_eq_add_of_le' (Nat.one_le_of_lt hdepth)
    have hget' : heap.tuples.get? h = some items := hget
    simp only [textWithin, hget', map_textWithin hitems (Nat.le_of_succ_le_succ hdepth), Tree.text]
  case list =>
    intro h items trees hlinks hv hitems depth hdepth
    obtain ⟨depth, rfl⟩ := Nat.exists_eq_add_of_le' (Nat.one_le_of_lt hdepth)
    have hwalk : heap.listItems h = (items, .sentinel) :=
      hlinks.walk_eq (hitems.length_eq ▸ hv.length_le) []
    have hstop : Handle.sentinel.isSentinel = true := rfl
    simp only [textWithin, hwalk, map_textWithin hitems (Nat.le_of_succ_le_succ hdepth), hstop, if_true,
      String.append_empty, Tree.text]
  case expression =>
    intro h e hget depth hdepth
    obtain ⟨depth, rfl⟩ := Nat.exists_eq_add_of_le' (Nat.one_le_of_lt hdepth)
    have hget' : heap.expressions.get? h = some e := hget
    simp only [textWithin, hget', Option.map_some, Option.getD_some, Tree.text]

/-- `Heap.text` writes a value as the text of the tree that it unfolds to. -/
theorem Unfolds.text_eq (hv : heap.Unfolds v t) : heap.text v = t.text :=
  hv.textWithin_eq hv.height_le

/-! ## The text without bounds -/

/-- Writing a value out comes to an end with the text. A list whose tail is gone ends with the handle to it. -/
inductive Displays (heap : Heap) : Value → String → Prop where
  | atom {v : Value} (htree : v.tree?.isSome) : Displays heap v v.text
  | string {h : Handle} {text : String} (hget : heap.get? .string h = some text) :
    Displays heap (.ref .string h) (quoted text)
  | tuple {h : Handle} {items : List Value} {texts : List String} (hget : heap.get? .tuple h = some items)
    (hlength : items.length = texts.length)
    (hitems : ∀ i hi hi', Displays heap (items.get ⟨i, hi⟩) (texts.get ⟨i, hi'⟩)) :
    Displays heap (.ref .tuple h) ("(" ++ ",".intercalate texts ++ ")")
  | list {h rest : Handle} {items : List Value} {texts : List String} (hlinks : heap.Links h items rest)
    (hlength : items.length = texts.length)
    (hitems : ∀ i hi hi', Displays heap (items.get ⟨i, hi⟩) (texts.get ⟨i, hi'⟩)) :
    Displays heap (.ref .list h)
      ("[" ++ ",".intercalate texts ++ (if rest.isSentinel then "" else Value.text (.ref .list rest)) ++ "]")
  | expression {h : Handle} {e : Expression} (hget : heap.get? .expression h = some e) :
    Displays heap (.ref .expression h) e.text
  | dangling {k : Kind} {h : Handle} (hkind : k ≠ .list) (hget : heap.get? k h = none) :
    Displays heap (.ref k h) (Value.text (.ref k h))

theorem Displays.functional {s s' : String} (hv : heap.Displays v s) (hv' : heap.Displays v s') : s = s' := by
  induction hv generalizing s' with
  | atom htree =>
    cases hv' with
    | atom => rfl
    | string | tuple | list | expression => cases htree
    | dangling => rfl
  | string hget =>
    cases hv' with
    | atom htree => cases htree
    | string hget' => rw [Option.some.inj (hget.symm.trans hget')]
    | dangling _ hget' => simp [hget] at hget'
  | @tuple h items texts hget hlength _ ih =>
    cases hv' with
    | atom htree => cases htree
    | @tuple _ _ texts' hget' hlength' hitems' =>
      cases hget.symm.trans hget'
      have htexts : texts = texts' := List.ext_get (hlength.symm.trans hlength') fun i hi hi' =>
        ih i (hlength ▸ hi) hi (hitems' i (hlength ▸ hi) hi')
      rw [htexts]
    | dangling _ hget' => simp [hget] at hget'
  | @list h rest items texts hlinks hlength _ ih =>
    cases hv' with
    | atom htree => cases htree
    | @list _ rest' _ texts' hlinks' hlength' hitems' =>
      obtain ⟨rfl, rfl⟩ := hlinks.functional hlinks'
      have htexts : texts = texts' := List.ext_get (hlength.symm.trans hlength') fun i hi hi' =>
        ih i (hlength ▸ hi) hi (hitems' i (hlength ▸ hi) hi')
      rw [htexts]
    | dangling hkind => exact absurd rfl hkind
  | expression hget =>
    cases hv' with
    | atom htree => cases htree
    | expression hget' => rw [Option.some.inj (hget.symm.trans hget')]
    | dangling _ hget' => simp [hget] at hget'
  | dangling hkind hget =>
    cases hv' with
    | atom htree => cases htree
    | string hget' | tuple hget' | expression hget' => simp [hget] at hget'
    | list => exact absurd rfl hkind
    | dangling => rfl

theorem Unfolds.displays (hv : heap.Unfolds v t) : heap.Displays v t.text := by
  have htexts : ∀ {items : List Value} {trees : List Tree},
      List.Forall₂ (fun v t => heap.Displays v t.text) items trees →
      List.Forall₂ heap.Displays items (Tree.texts trees) := by
    intro items trees hitems
    rw [Tree.texts_eq_map]
    exact List.forall₂_map_right_iff.mpr hitems
  refine Unfolds.induction_items (motive := fun v t => heap.Displays v t.text) ?atom ?string ?tuple ?list ?expression hv
  case atom =>
    intro v t htree
    rw [← Value.text_of_tree? htree]
    exact .atom (Option.isSome_of_eq_some htree)
  case string => exact fun h text hget => .string hget
  case tuple =>
    intro h items trees hget hitems
    obtain ⟨hlength, hget'⟩ := List.forall₂_iff_get.mp (htexts hitems)
    exact .tuple hget hlength hget'
  case list =>
    intro h items trees hlinks _ hitems
    obtain ⟨hlength, hget⟩ := List.forall₂_iff_get.mp (htexts hitems)
    have hdisplays := Displays.list hlinks hlength hget
    have hstop : Handle.sentinel.isSentinel = true := rfl
    simp only [hstop, if_true, String.append_empty] at hdisplays
    exact hdisplays
  case expression => exact fun h e hget => .expression hget

/-- A value that unfolds to `t` is displayed as `t.text` and as nothing else. -/
theorem Unfolds.displays_iff (hv : heap.Unfolds v t) (s : String) : heap.Displays v s ↔ s = t.text := by
  constructor
  · exact fun hs => hs.functional hv.displays
  · rintro rfl
    exact hv.displays

end Heap

end RefMachine
