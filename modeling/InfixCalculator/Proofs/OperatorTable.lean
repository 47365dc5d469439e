import InfixCalculator.OperatorTable
import Mathlib

namespace InfixCalculator

/-! What a table keeps of the entries that it is made of.

The last entry for an operator replaces those before it and stands in the place of the first. A table
can be kept in an array with an index from symbols to places as well: no place in the index is ever beyond
the array, and what is looked up is the same (`OperatorTable.ofList_last`). -/

/-- The entries of a table in an array, and an index of their symbols. -/
structure IndexedTable where
  entries : Array OperatorEntry
  places : Std.HashMap Char Nat

namespace IndexedTable

/-- A place that is beyond the entries. -/
structure Beyond where
  place : Nat

def empty : IndexedTable := ⟨#[], ∅⟩

def insert (table : IndexedTable) (entry : OperatorEntry) : Except Beyond IndexedTable :=
  match table.places[entry.symbol]? with
  | some place =>
      if place < table.entries.size then
        .ok { table with entries := table.entries.setIfInBounds place entry }
      else .error ⟨place⟩
  | none =>
      .ok ⟨table.entries.push entry, table.places.insert entry.symbol table.entries.size⟩

def ofList (entries : List OperatorEntry) : Except Beyond IndexedTable := entries.foldlM insert empty

def lookup? (table : IndexedTable) (symbol : Char) : Except Beyond (Option OperatorEntry) :=
  match table.places[symbol]? with
  | some place =>
      match table.entries[place]? with
      | some entry => .ok (some entry)
      | none => .error ⟨place⟩
  | none => .ok none

def entry? (table : IndexedTable) (operator : Operator) : Except Beyond (Option OperatorEntry) := do
  let found ← table.lookup? operator.symbol
  return found.filter (·.operator == operator)

/-- The same entries in the same order, and the index has the place of each under its symbol. -/
structure Represents (indexed : IndexedTable) (table : OperatorTable) : Prop where
  entries : indexed.entries.toList = table.entries
  places : ∀ (symbol : Char) (place : Nat), indexed.places[symbol]? = some place ↔
    (table.entries.map OperatorEntry.symbol)[place]? = some symbol

end IndexedTable

namespace OperatorEntry

theorem symbol_eq_iff {entry other : OperatorEntry} :
    entry.symbol = other.symbol ↔ entry.operator = other.operator :=
  ⟨Operator.symbol_injective, fun same => congrArg Operator.symbol same⟩

theorem map_symbol (entries : List OperatorEntry) :
    entries.map symbol = (entries.map operator).map Operator.symbol := (List.map_map ..).symm

theorem find?_eq_none_iff {symbol : Char} {entries : List OperatorEntry} :
    entries.find? (·.symbol == symbol) = none ↔ symbol ∉ entries.map OperatorEntry.symbol := by
  simp only [List.find?_eq_none, List.mem_map, not_exists, not_and, beq_iff_eq]

theorem find?_insertInto (entry : OperatorEntry) (symbol : Char) (entries : List OperatorEntry) :
    (entry.insertInto entries).find? (·.symbol == symbol) =
      if entry.symbol = symbol then some entry else entries.find? (·.symbol == symbol) := by
  induction entries with
  | nil =>
      by_cases here : entry.symbol = symbol
      · rw [insertInto, List.find?_cons_of_pos (by simpa using here), if_pos here]
      · rw [insertInto, List.find?_cons_of_neg (by simpa using here), if_neg here]
  | cons first rest ih =>
      by_cases same : first.operator = entry.operator
      · have spelled : first.symbol = entry.symbol := symbol_eq_iff.mpr same
        rw [insertInto, if_pos same]
        by_cases here : entry.symbol = symbol
        · rw [List.find?_cons_of_pos (by simpa using here), if_pos here]
        · rw [List.find?_cons_of_neg (by simpa using here), if_neg here,
            List.find?_cons_of_neg (by simpa [spelled] using here)]
      · have spelled : first.symbol ≠ entry.symbol := mt symbol_eq_iff.mp same
        rw [insertInto, if_neg same]
        by_cases here : first.symbol = symbol
        · have other : entry.symbol ≠ symbol := fun equal => spelled (here.trans equal.symm)
          rw [List.find?_cons_of_pos (by simpa using here), if_neg other,
            List.find?_cons_of_pos (by simpa using here)]
        · rw [List.find?_cons_of_neg (by simpa using here), ih,
            List.find?_cons_of_neg (by simpa using here)]

theorem symbols_insertInto (entry : OperatorEntry) (entries : List OperatorEntry) :
    (entry.insertInto entries).map symbol =
      if entry.symbol ∈ entries.map symbol then entries.map symbol
      else entries.map symbol ++ [entry.symbol] := by
  have known : entry.operator ∈ entries.map operator ↔ entry.symbol ∈ entries.map symbol := by
    simp only [List.mem_map, symbol_eq_iff]
  rw [map_symbol (entry.insertInto entries), map_operator_insertInto]
  by_cases member : entry.symbol ∈ entries.map symbol
  · rw [if_pos (known.mpr member), if_pos member, ← map_symbol]
  · rw [if_neg (mt known.mp member), if_neg member, List.map_append, ← map_symbol]
    rfl

theorem insertInto_of_absent {entry : OperatorEntry} {entries : List OperatorEntry}
    (absent : ∀ other ∈ entries, other.operator ≠ entry.operator) :
    entry.insertInto entries = entries ++ [entry] := by
  induction entries with
  | nil => rfl
  | cons first rest ih =>
      obtain ⟨here, more⟩ := List.forall_mem_cons.mp absent
      rw [insertInto, if_neg here, ih more, List.cons_append]

/-- Where an operator is, its entry is replaced. -/
theorem insertInto_of_place {entry old : OperatorEntry} {entries : List OperatorEntry} {place : Nat}
    (distinct : (entries.map operator).Nodup) (here : entries[place]? = some old)
    (same : old.operator = entry.operator) : entry.insertInto entries = entries.set place entry := by
  induction entries generalizing place with
  | nil => cases here
  | cons first rest ih =>
      rw [List.map_cons, List.nodup_cons] at distinct
      cases place with
      | zero =>
          obtain rfl : first = old := Option.some.inj here
          rw [insertInto, if_pos same, List.set_cons_zero]
      | succ place =>
          have other : first.operator ≠ entry.operator := fun equal =>
            distinct.1 (equal.trans same.symm ▸ List.mem_map_of_mem (List.mem_of_getElem? here))
          rw [insertInto, if_neg other, List.set_cons_succ, ih distinct.2 here]

end OperatorEntry

namespace OperatorTable

theorem ofList_concat (entries : List OperatorEntry) (entry : OperatorEntry) :
    ofList (entries ++ [entry]) = (ofList entries).insert entry := by
  rw [ofList, List.foldl_append]
  rfl

/-- An operator has the last of its entries. -/
theorem lookup?_ofList (entries : List OperatorEntry) (symbol : Char) :
    (ofList entries).lookup? symbol = (entries.filter (·.symbol == symbol)).getLast? := by
  induction entries using List.reverseRecOn with
  | nil => rfl
  | append_singleton entries entry ih =>
      rw [ofList_concat, lookup?, insert, OperatorEntry.find?_insertInto, List.filter_append]
      by_cases here : entry.symbol = symbol
      · simp [here]
      · rw [if_neg here, List.filter_cons_of_neg (by simpa using here), List.filter_nil,
          List.append_nil]
        exact ih

theorem entry?_ofList (entries : List OperatorEntry) (operator : Operator) :
    entry? (ofList entries) operator = (entries.filter (·.operator == operator)).getLast? := by
  rw [← lookup?_symbol_eq, lookup?_ofList]
  congr 2
  funext entry
  rw [Bool.eq_iff_iff, beq_iff_eq, beq_iff_eq]
  exact ⟨Operator.symbol_injective, fun same => congrArg Operator.symbol same⟩

/-- The symbols stand in the order in which they were first entered. -/
theorem symbols_ofList (entries : List OperatorEntry) :
    (ofList entries).entries.map OperatorEntry.symbol =
      (entries.map OperatorEntry.symbol).eraseDups := by
  induction entries using List.reverseRecOn with
  | nil => rfl
  | append_singleton entries entry ih =>
      rw [ofList_concat, insert, OperatorEntry.symbols_insertInto, ih, List.map_append,
        List.map_singleton, List.eraseDups_append]
      generalize entries.map OperatorEntry.symbol = symbols
      by_cases member : entry.symbol ∈ symbols
      · have removed : [entry.symbol].removeAll symbols = [] := by simp [List.removeAll, member]
        rw [if_pos (List.mem_eraseDups.mpr member), removed, List.eraseDups_nil, List.append_nil]
      · have kept : [entry.symbol].removeAll symbols = [entry.symbol] := by
          simp [List.removeAll, member]
        rw [if_neg (mt List.mem_eraseDups.mp member), kept]
        rfl

theorem nodup_symbols (table : OperatorTable) :
    (table.entries.map OperatorEntry.symbol).Nodup := by
  rw [OperatorEntry.map_symbol]
  exact table.distinct.map fun _ _ => Operator.symbol_injective

/-- What is in a table is found there. -/
theorem lookup?_of_mem {table : OperatorTable} {entry : OperatorEntry} (member : entry ∈ table.entries) :
    table.lookup? entry.symbol = some entry := by
  obtain ⟨before, after, split⟩ := List.append_of_mem member
  have distinct := table.nodup_symbols
  rw [split, List.map_append, List.map_cons, List.nodup_middle, List.nodup_cons] at distinct
  have absent : before.find? (·.symbol == entry.symbol) = none :=
    OperatorEntry.find?_eq_none_iff.mpr fun among => distinct.1 (List.mem_append_left _ among)
  rw [lookup?, split, List.find?_append, absent, Option.none_or,
    List.find?_cons_of_pos (by simp)]

theorem size_ofList (entries : List OperatorEntry) :
    (ofList entries).size = (entries.map OperatorEntry.symbol).toFinset.card := by
  have symbols := symbols_ofList entries
  have distinct := (ofList entries).nodup_symbols
  rw [size, ← List.length_map OperatorEntry.symbol, ← List.toFinset_card_of_nodup distinct, symbols]
  congr 1
  ext symbol
  rw [List.mem_toFinset, List.mem_toFinset, List.mem_eraseDups]

end OperatorTable

namespace IndexedTable

variable {indexed : IndexedTable} {table : OperatorTable}

theorem represents_empty : Represents empty .empty := by
  refine ⟨rfl, fun symbol place => ?_⟩
  simp [empty, OperatorTable.empty]

theorem Represents.lt_size (represents : Represents indexed table) {symbol : Char} {place : Nat}
    (found : indexed.places[symbol]? = some place) : place < indexed.entries.size := by
  obtain ⟨less, _⟩ := List.getElem?_eq_some_iff.mp ((represents.places symbol place).mp found)
  rwa [List.length_map, ← represents.entries, Array.length_toList] at less

/-- The index has the symbols that the entries have. -/
theorem Represents.places_eq_none_iff (represents : Represents indexed table) {symbol : Char} :
    indexed.places[symbol]? = none ↔ symbol ∉ table.entries.map OperatorEntry.symbol := by
  rw [Option.eq_none_iff_forall_ne_some, List.mem_iff_getElem?, not_exists]
  exact forall_congr' fun place => not_congr (represents.places symbol place)

/-- An insertion finds the place that it asks for. -/
theorem Represents.insert (represents : Represents indexed table) (entry : OperatorEntry) :
    ∃ next, indexed.insert entry = .ok next ∧ Represents next (table.insert entry) := by
  have symbols : (table.insert entry).entries.map OperatorEntry.symbol =
      if entry.symbol ∈ table.entries.map OperatorEntry.symbol
      then table.entries.map OperatorEntry.symbol
      else table.entries.map OperatorEntry.symbol ++ [entry.symbol] :=
    entry.symbols_insertInto table.entries
  cases found : indexed.places[entry.symbol]? with
  | none =>
      have absent := represents.places_eq_none_iff.mp found
      rw [if_neg absent] at symbols
      refine ⟨⟨indexed.entries.push entry, _⟩, by rw [IndexedTable.insert, found], ?_, ?_⟩
      · have unknown : ∀ other ∈ table.entries, other.operator ≠ entry.operator :=
          fun other member same => absent (by
            rw [← OperatorEntry.symbol_eq_iff.mpr same]
            exact List.mem_map_of_mem member)
        rw [Array.toList_push, represents.entries]
        exact (OperatorEntry.insertInto_of_absent unknown).symm
      · intro symbol place
        have known := represents.places symbol place
        have size : indexed.entries.size = (table.entries.map OperatorEntry.symbol).length := by
          rw [List.length_map, ← represents.entries, Array.length_toList]
        -- The new symbol has the place behind all others, and no other symbol has that place.
        rw [symbols, Std.HashMap.getElem?_insert, size]
        generalize table.entries.map OperatorEntry.symbol = earlier at known absent ⊢
        grind
  | some place =>
      have here := (represents.places entry.symbol place).mp found
      rw [if_pos (List.mem_of_getElem? here)] at symbols
      refine ⟨⟨indexed.entries.setIfInBounds place entry, indexed.places⟩, ?_, ?_, ?_⟩
      · simp only [IndexedTable.insert, found, if_pos (represents.lt_size found)]
      · rw [List.getElem?_map, Option.map_eq_some_iff] at here
        obtain ⟨old, here, same⟩ := here
        rw [Array.toList_setIfInBounds, represents.entries]
        exact (OperatorEntry.insertInto_of_place table.distinct here
          (OperatorEntry.symbol_eq_iff.mp same)).symm
      · intro symbol place
        rw [symbols]
        exact represents.places symbol place

theorem ofList_concat (entries : List OperatorEntry) (entry : OperatorEntry) :
    ofList (entries ++ [entry]) = (ofList entries).bind (·.insert entry) := by
  rw [ofList, List.foldlM_append]
  simp only [List.foldlM_cons, List.foldlM_nil, bind_pure]
  rfl

/-- Every place that the entries ask for is found, and they end in the table that they make. -/
theorem exists_ofList (entries : List OperatorEntry) :
    ∃ indexed, ofList entries = .ok indexed ∧ Represents indexed (.ofList entries) := by
  induction entries using List.reverseRecOn with
  | nil => exact ⟨empty, rfl, represents_empty⟩
  | append_singleton entries entry ih =>
      obtain ⟨indexed, made, represents⟩ := ih
      obtain ⟨next, inserted, same⟩ := represents.insert entry
      refine ⟨next, ?_, ?_⟩
      · rw [ofList_concat, made]
        exact inserted
      · rwa [OperatorTable.ofList_concat]

theorem Represents.lookup? (represents : Represents indexed table) (symbol : Char) :
    indexed.lookup? symbol = .ok (table.lookup? symbol) := by
  cases found : indexed.places[symbol]? with
  | none =>
      have absent := represents.places_eq_none_iff.mp found
      have missing : table.lookup? symbol = none := OperatorEntry.find?_eq_none_iff.mpr absent
      simp only [IndexedTable.lookup?, found, missing]
  | some place =>
      have here := (represents.places symbol place).mp found
      rw [List.getElem?_map, Option.map_eq_some_iff] at here
      obtain ⟨entry, here, rfl⟩ := here
      have stored : indexed.entries[place]? = some entry := by
        rw [← Array.getElem?_toList, represents.entries, here]
      simp only [IndexedTable.lookup?, found, stored,
        OperatorTable.lookup?_of_mem (List.mem_of_getElem? here)]

theorem Represents.entry? (represents : Represents indexed table) (operator : Operator) :
    indexed.entry? operator = .ok (table.entry? operator) := by
  have kept : (table.entry? operator).filter (·.operator == operator) = table.entry? operator := by
    cases found : table.entry? operator with
    | none => rfl
    | some entry =>
        rw [Option.filter_some, if_pos (beq_iff_eq.mpr (OperatorTable.entry?_operator found))]
  rw [IndexedTable.entry?, represents.lookup?, OperatorTable.lookup?_symbol_eq]
  exact congrArg Except.ok kept

end IndexedTable

namespace OperatorTable

/-- A table has the last entry of each operator, where the first of them was entered. With an index
to the entries nothing else is found, and no place in the index is beyond them. What is found does not
depend on how the entries of different operators alternate. -/
theorem ofList_last (entries : List OperatorEntry) :
    let table := ofList entries
    (∀ symbol, table.lookup? symbol = (entries.filter (·.symbol == symbol)).getLast?) ∧
    (∀ operator, table.entry? operator = (entries.filter (·.operator == operator)).getLast?) ∧
    table.entries.map OperatorEntry.symbol = (entries.map OperatorEntry.symbol).eraseDups ∧
    (table.entries.map OperatorEntry.symbol).Nodup ∧
    (∀ entry ∈ table.entries, (entries.filter (·.symbol == entry.symbol)).getLast? = some entry) ∧
    table.size = (entries.map OperatorEntry.symbol).toFinset.card ∧
    (∃ indexed : IndexedTable, IndexedTable.ofList entries = .ok indexed ∧
      indexed.entries.toList = table.entries ∧
      (∀ (symbol : Char) (place : Nat), indexed.places[symbol]? = some place →
        place < indexed.entries.size) ∧
      (∀ symbol, indexed.lookup? symbol = .ok (table.lookup? symbol)) ∧
      ∀ operator, indexed.entry? operator = .ok (table.entry? operator)) ∧
    ∀ others : List OperatorEntry,
      (∀ symbol, others.filter (·.symbol == symbol) = entries.filter (·.symbol == symbol)) →
      (∀ symbol, lookup? (ofList others) symbol = table.lookup? symbol) ∧
      ∀ operator, entry? (ofList others) operator = table.entry? operator := by
  intro table
  have found := lookup?_ofList entries
  refine ⟨found, entry?_ofList entries, symbols_ofList entries, table.nodup_symbols, ?_,
    size_ofList entries, ?_, ?_⟩
  · intro entry member
    rw [← found]
    exact lookup?_of_mem member
  · obtain ⟨indexed, made, represents⟩ := IndexedTable.exists_ofList entries
    refine ⟨indexed, made, represents.entries, ?_, represents.lookup?, represents.entry?⟩
    intro symbol place stored
    exact represents.lt_size stored
  · intro others same
    have unchanged (symbol : Char) : (ofList others).lookup? symbol = table.lookup? symbol := by
      rw [lookup?_ofList, found, same]
    refine ⟨unchanged, fun operator => ?_⟩
    rw [← lookup?_symbol_eq, unchanged, lookup?_symbol_eq]

end OperatorTable
end InfixCalculator
