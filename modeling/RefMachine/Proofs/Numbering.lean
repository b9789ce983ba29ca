import RefMachine.Proofs.Machine.Changes
import Mathlib.Data.Finset.Card
import Mathlib.Data.List.Induction
import Std.Data.String.ToNat

/-!
# Numbers of names and of literals

A registry keeps the texts in a row and the numbers in a table, and each is written on its own. Whatever the calls, the
table says where the texts stand in the row (`Registry.Lists`), and the row is that of the first arrivals: for literals
all of them, for names as many as there are indices. All else follows from how this row grows, which is at its end only,
so a number stays with its text (`VariableNames.indices_dense`, `Literals.ids_permanent`).
-/

namespace RefMachine

/-! ## First arrivals -/

section FirstArrivals

variable {texts more : List String} {text : String} {i : Nat}

theorem eraseDups_concat (texts : List String) (text : String) :
    (texts ++ [text]).eraseDups = if text ∈ texts then texts.eraseDups else texts.eraseDups ++ [text] := by
  rw [List.eraseDups_append]
  split_ifs with hmem
  · simp [List.removeAll, hmem]
  · simp [List.removeAll, hmem, List.eraseDups_cons]

theorem take_eraseDups_concat (texts : List String) (text : String) (n : Nat) :
    (texts ++ [text]).eraseDups.take n =
      if text ∈ texts.eraseDups.take n ∨ n ≤ (texts.eraseDups.take n).length then texts.eraseDups.take n
      else texts.eraseDups.take n ++ [text] := by
  rw [eraseDups_concat]
  rcases Nat.lt_or_ge texts.eraseDups.length n with hroom | hfull
  · have hall : texts.eraseDups.take n = texts.eraseDups := List.take_of_length_le hroom.le
    simp only [hall, List.mem_eraseDups, Nat.not_le.mpr hroom, or_false]
    split_ifs with hmem
    · exact hall
    · exact List.take_of_length_le (by simp; omega)
  · have hstop : text ∈ texts.eraseDups.take n ∨ n ≤ (texts.eraseDups.take n).length := .inr (by simp [hfull])
    rw [if_pos hstop]
    split_ifs with hmem
    · rfl
    · exact List.take_append_of_le_length hfull

theorem nodup_eraseDups (texts : List String) : texts.eraseDups.Nodup := by
  induction texts using List.reverseRecOn with
  | nil => simp
  | append_singleton texts text ih =>
    rw [eraseDups_concat]
    split_ifs with hmem
    · exact ih
    · rw [← List.concat_eq_append]
      exact ih.concat (by simpa using hmem)

theorem length_eraseDups (texts : List String) : texts.eraseDups.length = texts.toFinset.card := by
  rw [← List.toFinset_card_of_nodup (nodup_eraseDups texts)]
  congr 1
  ext text
  simp

theorem eraseDups_mono (hmore : texts <+: more) : texts.eraseDups <+: more.eraseDups := by
  obtain ⟨later, rfl⟩ := hmore
  rw [List.eraseDups_append]
  exact List.prefix_append _ _

theorem idxOf_eraseDups_mono (hmore : texts <+: more) (hmem : text ∈ texts) :
    more.eraseDups.idxOf text = texts.eraseDups.idxOf text := by
  obtain ⟨rest, hrest⟩ := eraseDups_mono hmore
  rw [← hrest, List.idxOf_append_of_mem (List.mem_eraseDups.mpr hmem)]

theorem idxOf_eraseDups_of_new (hnew : text ∉ texts) :
    (texts ++ [text]).eraseDups.idxOf text = texts.toFinset.card := by
  rw [eraseDups_concat, if_neg hnew, List.idxOf_append_of_notMem (mt List.mem_eraseDups.mp hnew), List.idxOf_cons_self,
    length_eraseDups, Nat.add_zero]

theorem getElem?_mono {row row' : List String} (hrow : row <+: row') (hi : row[i]? = some text) :
    row'[i]? = some text := by
  obtain ⟨rest, rfl⟩ := hrow
  rw [List.getElem?_append_left (List.getElem?_eq_some_iff.mp hi).1, hi]

theorem getElem?_concat_eq_some_iff {row : List String} {other : String} :
    (row ++ [text])[i]? = some other ↔ row[i]? = some other ∨ i = row.length ∧ text = other := by
  grind

end FirstArrivals

/-! ## Registries -/

namespace Registry

variable {r : Registry} {row : List String} {text : String} {i : Nat}

/-- The registry has the texts in this order, and its table says where each of them is. -/
structure Lists (r : Registry) (row : List String) : Prop where
  toList_eq : r.texts.toList = row
  find?_eq_some_iff : ∀ text i, r.find? text = some i ↔ row[i]? = some text

theorem lists_empty : empty.Lists [] :=
  ⟨rfl, by simp [find?, empty]⟩

namespace Lists

theorem size_eq (hr : r.Lists row) : r.size = row.length := by
  rw [← hr.toList_eq, Array.length_toList, size]

theorem get?_eq (hr : r.Lists row) (i : Nat) : r.get? i = row[i]? := by
  rw [← hr.toList_eq, Array.getElem?_toList, get?]

theorem find?_eq_none_iff (hr : r.Lists row) : r.find? text = none ↔ text ∉ row := by
  rw [Option.eq_none_iff_forall_ne_some, List.mem_iff_getElem?]
  simp only [ne_eq, hr.find?_eq_some_iff, not_exists]

theorem find?_of_mem (hr : r.Lists row) (hmem : text ∈ row) : r.find? text = some (row.idxOf text) :=
  (hr.find?_eq_some_iff text _).mpr (List.getElem?_idxOf hmem)

theorem push (hr : r.Lists row) (hnew : text ∉ row) : (r.push text).Lists (row ++ [text]) where
  toList_eq := by
    rw [Registry.push, Array.toList_push, hr.toList_eq]
  find?_eq_some_iff other i := by
    rw [find?_push, hr.size_eq, getElem?_concat_eq_some_iff]
    split_ifs with heq
    · subst heq
      have hne : row[i]? ≠ some text := fun hi => hnew (List.mem_of_getElem? hi)
      simp [hne, eq_comm]
    · simp [hr.find?_eq_some_iff, heq]

end Lists

end Registry

/-! ## Variable names -/

namespace VariableNames

variable {names : VariableNames} {row : List String} {name : String} {i : Nat}

/-- The names after a call, whether or not the call failed. -/
def after (names : VariableNames) (name : String) : VariableNames :=
  endState (declare name names)

/-- The names that a sequence of calls makes of none. -/
def ofCalls (calls : List String) : VariableNames :=
  calls.foldl after {}

theorem ofCalls_concat (calls : List String) (name : String) :
    ofCalls (calls ++ [name]) = (ofCalls calls).after name := by
  simp [ofCalls]

theorem declare_of_known (hindex : names.index? name = some i) : declare name names = .ok i names := by
  simp only [declare, hindex]

theorem declare_of_new (hindex : names.index? name = none) (hroom : names.size < UInt16.size) :
    declare name names = .ok names.size ⟨names.registry.push name⟩ := by
  simp only [declare, hindex, if_pos hroom]

theorem declare_of_full (hindex : names.index? name = none) (hfull : ¬ names.size < UInt16.size) :
    declare name names = .error .tooManyVariables names := by
  simp only [declare, hindex, if_neg hfull]

theorem index?_of_declare {names' : VariableNames} (hrun : declare name names = .ok i names') :
    names'.index? name = some i := by
  cases hindex : names.index? name with
  | some j =>
    rw [declare_of_known hindex] at hrun
    cases hrun
    exact hindex
  | none =>
    by_cases hroom : names.size < UInt16.size
    · rw [declare_of_new hindex hroom] at hrun
      cases hrun
      rw [index?, Registry.find?_push, if_pos rfl, size]
    · rw [declare_of_full hindex hroom] at hrun
      cases hrun

theorem lists_after (hr : names.registry.Lists row) (name : String) :
    (names.after name).registry.Lists (if name ∈ row ∨ UInt16.size ≤ row.length then row else row ++ [name]) := by
  have hsize : names.size = row.length := hr.size_eq
  by_cases hmem : name ∈ row
  · rw [if_pos (.inl hmem), after, declare_of_known (hr.find?_of_mem hmem)]
    exact hr
  · have hindex : names.index? name = none := hr.find?_eq_none_iff.mpr hmem
    by_cases hfull : UInt16.size ≤ row.length
    · rw [if_pos (.inr hfull), after, declare_of_full hindex (by omega)]
      exact hr
    · rw [if_neg (by simp [hmem, hfull]), after, declare_of_new hindex (by omega)]
      exact hr.push hmem

/-- The names of `ofCalls calls` are the different ones of `calls` in the order of their arrival, as many as there are
indices. -/
theorem lists_ofCalls (calls : List String) : (ofCalls calls).registry.Lists (calls.eraseDups.take UInt16.size) := by
  induction calls using List.reverseRecOn with
  | nil => exact Registry.lists_empty
  | append_singleton calls name ih =>
    rw [ofCalls_concat, take_eraseDups_concat]
    exact lists_after ih name

theorem size_ofCalls (calls : List String) : (ofCalls calls).size = min calls.toFinset.card UInt16.size := by
  rw [size, (lists_ofCalls calls).size_eq, List.length_take, length_eraseDups, Nat.min_comm]

theorem index?_eq_none {calls : List String} (hnew : name ∉ calls) : (ofCalls calls).index? name = none :=
  (lists_ofCalls calls).find?_eq_none_iff.mpr fun hmem => hnew (List.mem_eraseDups.mp (List.mem_of_mem_take hmem))

theorem index?_ofCalls_append {calls : List String} (hindex : (ofCalls calls).index? name = some i)
    (later : List String) : (ofCalls (calls ++ later)).index? name = some i := by
  have hrow := (eraseDups_mono (List.prefix_append calls later)).take UInt16.size
  refine ((lists_ofCalls (calls ++ later)).find?_eq_some_iff name i).mpr (getElem?_mono hrow ?_)
  exact ((lists_ofCalls calls).find?_eq_some_iff name i).mp hindex

theorem lt_size_of_index? {calls : List String} (hindex : (ofCalls calls).index? name = some i) :
    i < (ofCalls calls).size := by
  have hi := ((lists_ofCalls calls).find?_eq_some_iff name i).mp hindex
  rw [size, (lists_ofCalls calls).size_eq]
  exact (List.getElem?_eq_some_iff.mp hi).1

theorem size_scope (names : VariableNames) : names.scope.size = names.size :=
  Array.size_map

theorem slots_scope (names : VariableNames) (i : Nat) :
    names.scope.slots[i]? = (names.name? i).map fun name => { name := name } :=
  Array.getElem?_map

end VariableNames

/-! ## Wider scopes -/

theorem Scope.copy_size (scope : Scope) (names : VariableNames) (heap : Heap) :
    Ends (fun wider _ => wider.size = names.size) (fun _ _ => True) (scope.copy names heap) := by
  unfold copy
  refine (@Ends.mapM _ _ _ _ (fun _ _ => True) _
    (fun _ _ => .of_forall (fun _ _ => trivial) (fun _ _ => trivial) _) _ heap).bind fun slots heap' hslots => ?_
  have hlength := hslots.length_eq
  rw [List.length_zipIdx, Array.length_toList] at hlength
  exact hlength.symm

namespace Machine

theorem respects_scopeSize : Respects fun m m' => m'.scope.size = m.scope.size where
  refl _ := rfl
  trans h h' := h'.trans h
  change hchange := by
    cases hchange with
    | stack | setting | report | heap => rfl
    | bind => exact Scope.size_setBinding ..

theorem size_le_of_resizeScope {names : VariableNames} {m m' : Machine} (hrun : resizeScope names m = .ok () m') :
    names.size ≤ m'.scope.size := by
  have hends : Ends (fun _ m' => names.size ≤ m'.scope.size) (fun _ _ => True) (resizeScope names m) := by
    refine Ends.bind_get ?_
    split_ifs with hsize
    · have hcopy : Ends (fun wider _ => wider.size = names.size) (fun _ _ => True) (onHeap (m.scope.copy names) m) :=
        onHeap_ends (m.scope.copy_size names m.heap)
      refine hcopy.bind fun wider m₁ hwider => Ends.bind_modify ?_
      have hrelease := respects_scopeSize.releaseEach m.scope.values { m₁ with scope := wider }
      refine hrelease.mono (fun _ m₂ hsame => ?_) fun _ _ _ => trivial
      rw [hsame, ← hwider]
    · exact Nat.not_lt.mp hsize
  exact hends.of_ok hrun

end Machine

namespace VariableNames

/-- **Variable indices.** Whatever names are declared in whatever order, starting from none, `declare` gives a new name
the number of names before it, as long as this is an index. Index and name are found from each other. An index that was
given stays with its name, and belongs to a variable of every scope that is made for the names from then on or widened
to them. When all indices are given, a name without one is refused and nothing changes, and a name with one gets it as
before. A scope made for the names has one variable for each of them, unset. -/
theorem indices_dense (calls : List String) :
    (ofCalls calls).size = min calls.toFinset.card UInt16.size ∧
    (∀ name ∉ calls, calls.toFinset.card < UInt16.size →
      declare name (ofCalls calls) = .ok calls.toFinset.card (ofCalls (calls ++ [name]))) ∧
    (∀ name i, (ofCalls calls).index? name = some i ↔ (ofCalls calls).name? i = some name) ∧
    (∀ name i names, declare name (ofCalls calls) = .ok i names → i < UInt16.size ∧
      ∀ later names', names' = ofCalls (calls ++ name :: later) →
        names'.index? name = some i ∧ declare name names' = .ok i names' ∧
        i < names'.scope.size ∧ ∀ m m', Machine.resizeScope names' m = .ok () m' → i < m'.scope.size) ∧
    ((ofCalls calls).size = UInt16.size → ∀ name,
      ((ofCalls calls).index? name = none → declare name (ofCalls calls) = .error .tooManyVariables (ofCalls calls)) ∧
      ∀ i, (ofCalls calls).index? name = some i → declare name (ofCalls calls) = .ok i (ofCalls calls)) ∧
    (ofCalls calls).scope.size = (ofCalls calls).size ∧
    ∀ i, (ofCalls calls).scope.slots[i]? =
      ((ofCalls calls).name? i).map fun name => { name := name, binding := none } := by
  have hr := lists_ofCalls calls
  have hsize := size_ofCalls calls
  have hgiven : ∀ {name i names}, declare name (ofCalls calls) = .ok i names →
      (ofCalls (calls ++ [name])).index? name = some i := by
    intro name i names hrun
    rw [ofCalls_concat, after, hrun, endState]
    exact index?_of_declare hrun
  refine ⟨hsize, fun name hnew hroom => ?_, fun name i => ?_,
    fun name i names hrun => ⟨?_, fun later names' hnames => ?_⟩,
    fun hfull name => ⟨fun hindex => ?_, fun i => declare_of_known⟩, size_scope _, slots_scope _⟩
  · rw [Nat.min_eq_left hroom.le] at hsize
    have hdeclare := declare_of_new (index?_eq_none hnew) (hsize ▸ hroom)
    rw [ofCalls_concat, after, hdeclare, hsize, endState]
  · rw [name?, hr.get?_eq]
    exact hr.find?_eq_some_iff name i
  · have hlt := lt_size_of_index? (hgiven hrun)
    rw [size_ofCalls] at hlt
    exact lt_of_lt_of_le hlt (Nat.min_le_right _ _)
  · have hindex : names'.index? name = some i := by
      rw [hnames, ← List.singleton_append, ← List.append_assoc]
      exact index?_ofCalls_append (hgiven hrun) later
    have hlt : i < names'.size := by
      subst hnames
      exact lt_size_of_index? hindex
    refine ⟨hindex, declare_of_known hindex, ?_, fun m m' hresize => ?_⟩
    · rwa [size_scope]
    · exact lt_of_lt_of_le hlt (Machine.size_le_of_resizeScope hresize)
  · exact declare_of_full hindex (by omega)

/-- As many names as a number says, no two of them the same. -/
def numerals (n : Nat) : List String :=
  (List.range n).map Nat.repr

theorem numerals_succ (n : Nat) : numerals (n + 1) = numerals n ++ [Nat.repr n] := by
  rw [numerals, List.range_succ, List.map_append, List.map_singleton, numerals]

theorem repr_not_mem_numerals (n : Nat) : Nat.repr n ∉ numerals n := by
  intro hmem
  obtain ⟨k, hk, heq⟩ := List.mem_map.mp hmem
  rw [Nat.repr_injective heq, List.mem_range] at hk
  omega

theorem card_numerals (n : Nat) : (numerals n).toFinset.card = n := by
  have hnodup : (numerals n).Nodup := List.nodup_range.map fun _ _ => Nat.repr_injective
  rw [List.toFinset_card_of_nodup hnodup, numerals, List.length_map, List.length_range]

/-- The last index is given, the name after it is refused, and the last index is found again. -/
theorem indices_dense_limit :
    declare (Nat.repr 65535) (ofCalls (numerals 65535)) = .ok 65535 (ofCalls (numerals 65536)) ∧
      declare (Nat.repr 65536) (ofCalls (numerals 65536)) = .error .tooManyVariables (ofCalls (numerals 65536)) ∧
      declare (Nat.repr 65535) (ofCalls (numerals 65536)) = .ok 65535 (ofCalls (numerals 65536)) := by
  obtain ⟨-, hnew, -, hkept, -⟩ := indices_dense (numerals 65535)
  obtain ⟨hsize, -, -, -, hfull, -⟩ := indices_dense (numerals 65536)
  rw [card_numerals] at hnew hsize
  have hgiven := hnew (Nat.repr 65535) (repr_not_mem_numerals 65535) (by decide)
  rw [← numerals_succ] at hgiven
  exact ⟨hgiven, (hfull hsize (Nat.repr 65536)).1 (index?_eq_none (repr_not_mem_numerals 65536)),
    ((hkept _ _ _ hgiven).2 [] _ (by rw [numerals_succ 65535])).2.1⟩

end VariableNames

/-! ## Literals -/

namespace Literals

variable {literals : Literals} {row texts : List String} {text : String} {id : UInt32} {i : Nat}

/-- The numbers that registering some texts answers, in order, and the literals afterwards. -/
def registerAll (texts : List String) : List UInt32 × Literals :=
  texts.foldl (fun state text => (state.1 ++ [(state.2.register text).1], (state.2.register text).2)) ([], {})

/-- The numbers that registering some texts answers, in order. -/
def issued (texts : List String) : List UInt32 :=
  (registerAll texts).1

/-- The literals that registering some texts makes of none. -/
def ofTexts (texts : List String) : Literals :=
  (registerAll texts).2

theorem issued_concat (texts : List String) (text : String) :
    issued (texts ++ [text]) = issued texts ++ [((ofTexts texts).register text).1] := by
  simp [issued, ofTexts, registerAll]

theorem ofTexts_concat (texts : List String) (text : String) :
    ofTexts (texts ++ [text]) = ((ofTexts texts).register text).2 := by
  simp [ofTexts, registerAll]

theorem toNat_word {n : Nat} (hn : n < UInt32.size) : (word n).toNat = n := by
  have hmin : min n (UInt32.size - 1) = n := by omega
  rw [word, hmin]
  exact UInt32.toNat_ofNat_of_lt' hn

theorem register_of_mem (hr : literals.registry.Lists row) (hmem : text ∈ row) :
    literals.register text = (word (row.idxOf text), literals) := by
  simp only [register, hr.find?_of_mem hmem]

theorem register_of_not_mem (hr : literals.registry.Lists row) (hmem : text ∉ row) :
    literals.register text = (word row.length, ⟨literals.registry.push text⟩) := by
  simp only [register, hr.find?_eq_none_iff.mpr hmem, size, hr.size_eq]

/-- The literals of `ofTexts texts` are the different ones of `texts` in the order of their arrival. -/
theorem lists_ofTexts (texts : List String) : (ofTexts texts).registry.Lists texts.eraseDups := by
  induction texts using List.reverseRecOn with
  | nil => exact Registry.lists_empty
  | append_singleton texts text ih =>
    rw [ofTexts_concat, eraseDups_concat]
    split_ifs with hmem
    · rw [register_of_mem ih (List.mem_eraseDups.mpr hmem)]
      exact ih
    · have hnew := mt List.mem_eraseDups.mp hmem
      rw [register_of_not_mem ih hnew]
      exact ih.push hnew

theorem issued_eq (texts : List String) : issued texts = texts.map fun text => word (texts.eraseDups.idxOf text) := by
  induction texts using List.reverseRecOn with
  | nil => rfl
  | append_singleton texts text ih =>
    have hold : ∀ other ∈ texts, word ((texts ++ [text]).eraseDups.idxOf other) = word (texts.eraseDups.idxOf other) :=
      fun other hother => by rw [idxOf_eraseDups_mono (List.prefix_append texts [text]) hother]
    have hlast : ((ofTexts texts).register text).1 = word ((texts ++ [text]).eraseDups.idxOf text) := by
      by_cases hmem : text ∈ texts
      · rw [register_of_mem (lists_ofTexts texts) (List.mem_eraseDups.mpr hmem), hold text hmem]
      · rw [register_of_not_mem (lists_ofTexts texts) (mt List.mem_eraseDups.mp hmem), length_eraseDups,
          idxOf_eraseDups_of_new hmem]
    rw [issued_concat, ih, hlast, List.map_append, List.map_singleton, List.map_congr_left hold]

theorem length_issued (texts : List String) : (issued texts).length = texts.length := by
  rw [issued_eq, List.length_map]

theorem toNat_issued (hroom : texts.toFinset.card ≤ UInt32.size) (htext : texts[i]? = some text)
    (hid : (issued texts)[i]? = some id) : id.toNat = texts.eraseDups.idxOf text := by
  rw [issued_eq, List.getElem?_map, htext, Option.map_some, Option.some.injEq] at hid
  have hmem : text ∈ texts.eraseDups := List.mem_eraseDups.mpr (List.mem_of_getElem? htext)
  have hlt := List.idxOf_lt_length_iff.mpr hmem
  rw [length_eraseDups] at hlt
  rw [← hid, toNat_word (by omega)]

theorem text?_of_issued (hroom : texts.toFinset.card ≤ UInt32.size) (htext : texts[i]? = some text)
    (hid : (issued texts)[i]? = some id) {more : List String} (hmore : texts.take (i + 1) <+: more) :
    (ofTexts more).text? id = some text := by
  have hmem : text ∈ texts.take (i + 1) := by
    rw [List.take_add_one, htext]
    simp
  rw [text?, (lists_ofTexts more).get?_eq, toNat_issued hroom htext hid,
    idxOf_eraseDups_mono (List.take_prefix (i + 1) texts) hmem, ← idxOf_eraseDups_mono hmore hmem]
  exact List.getElem?_idxOf (List.mem_eraseDups.mpr (hmore.subset hmem))

theorem mem_issued_of_text? (hroom : texts.toFinset.card ≤ UInt32.size) (hload : (ofTexts texts).text? id = some text) :
    id ∈ issued texts := by
  rw [text?, (lists_ofTexts texts).get?_eq] at hload
  obtain ⟨i, htext⟩ := List.mem_iff_getElem?.mp (List.mem_eraseDups.mp (List.mem_of_getElem? hload))
  have hi : i < (issued texts).length := by
    rw [length_issued]
    exact (List.getElem?_eq_some_iff.mp htext).1
  have hid := List.getElem?_eq_getElem hi
  have hplace := toNat_issued hroom htext hid
  -- The text stands in one place only.
  have hfind := ((lists_ofTexts texts).find?_eq_some_iff text id.toNat).mpr hload
  rw [(lists_ofTexts texts).find?_of_mem (List.mem_of_getElem? hload), ← hplace, Option.some.injEq] at hfind
  rw [← UInt32.toNat_inj.mp hfind]
  exact List.getElem_mem hi

/-- **Numbers of literals.** Whatever texts are registered in whatever order, starting from none, as long as the
different ones are no more than there are words, `register` answers a new text with the number of different texts before
it, and two calls alike exactly if their texts are the same. From its call on a number loads its text, whatever else is
registered, and a number that no call was answered with loads none. -/
theorem ids_permanent {texts : List String} (hroom : texts.toFinset.card ≤ UInt32.size) :
    (issued texts).length = texts.length ∧
    (∀ (i : Nat) text id, texts[i]? = some text → (issued texts)[i]? = some id →
      (text ∉ texts.take i → id.toNat = (texts.take i).toFinset.card) ∧
      (∀ (j : Nat) text' id', texts[j]? = some text' → (issued texts)[j]? = some id' → (id = id' ↔ text = text')) ∧
      ∀ more, texts.take (i + 1) <+: more → (ofTexts more).text? id = some text) ∧
    ∀ id, (ofTexts texts).text? id = none ↔ id ∉ issued texts := by
  refine ⟨length_issued texts, fun i text id htext hid => ⟨fun hnew => ?_, fun j text' id' htext' hid' => ?_,
    fun more => text?_of_issued hroom htext hid⟩, fun id => ⟨fun hnone hmem => ?_, fun hmem => ?_⟩⟩
  · have hcall : texts.take (i + 1) = texts.take i ++ [text] := by
      rw [List.take_add_one, htext, Option.toList_some]
    rw [toNat_issued hroom htext hid, idxOf_eraseDups_mono (List.take_prefix (i + 1) texts) (by simp [hcall]), hcall,
      idxOf_eraseDups_of_new hnew]
  · constructor
    · rintro rfl
      have hload := text?_of_issued hroom htext hid (List.take_prefix _ texts)
      rw [text?_of_issued hroom htext' hid' (List.take_prefix _ texts)] at hload
      exact (Option.some.inj hload).symm
    · rintro rfl
      apply UInt32.toNat_inj.mp
      rw [toNat_issued hroom htext hid, toNat_issued hroom htext' hid']
  · obtain ⟨i, hid⟩ := List.mem_iff_getElem?.mp hmem
    have hi : i < texts.length := by
      rw [← length_issued]
      exact (List.getElem?_eq_some_iff.mp hid).1
    rw [text?_of_issued hroom (List.getElem?_eq_getElem hi) hid (List.take_prefix _ texts)] at hnone
    cases hnone
  · rw [Option.eq_none_iff_forall_ne_some]
    exact fun text htext => hmem (mem_issued_of_text? hroom htext)

/-- Two texts, one of them registered twice, and another one later. -/
theorem ids_permanent_repeated :
    ["a", "b", "a"].toFinset.card ≤ UInt32.size ∧ issued ["a", "b", "a"] = [0, 1, 0] ∧
      (ofTexts ["a", "b", "a", "c"]).text? 1 = some "b" ∧ (ofTexts ["a", "b", "a"]).text? 2 = none := by
  have hroom : ["a", "b", "a"].toFinset.card ≤ UInt32.size := by decide
  have hissued : issued ["a", "b", "a"] = [0, 1, 0] := by
    rw [issued_eq]
    decide
  obtain ⟨-, hcalls, hnone⟩ := ids_permanent hroom
  rw [hissued] at hcalls hnone
  exact ⟨hroom, hissued, (hcalls 1 "b" 1 rfl rfl).2.2 ["a", "b", "a", "c"] (by decide), (hnone 2).mpr (by decide)⟩

end Literals

end RefMachine
