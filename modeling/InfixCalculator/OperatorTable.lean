import InfixCalculator.Operator

namespace InfixCalculator

/-! What a calculator knows of its operators: which there are, and how they bind.

A table holds at most one entry for an operator, in the order in which the operators were first
entered. Every stage of a calculation takes the table as an argument; what an operator computes does
not depend on it. -/

/-- How a chain of operators of one precedence groups. -/
inductive Associativity where
  | left | right
deriving DecidableEq, Repr

/-- What a table says of one operator; a higher precedence binds tighter. -/
structure OperatorEntry where
  operator : Operator
  precedence : Nat
  associativity : Associativity
  name : String
deriving DecidableEq, Repr

namespace OperatorEntry

def symbol (entry : OperatorEntry) : Char := entry.operator.symbol

def placement (entry : OperatorEntry) : Placement := entry.operator.placement

/-- The symbol with the name behind it, such as `S (sin)`. -/
def caption (entry : OperatorEntry) : String :=
  String.singleton entry.symbol ++ " (" ++ entry.name ++ ")"

/-- Whether `first` takes an operand that stands between it and a later `second`: it binds tighter,
or as tight and the chain groups to the left. -/
def bindsBefore (first second : OperatorEntry) : Bool :=
  decide (second.precedence < first.precedence) ||
    (first.precedence == second.precedence && second.associativity == .left)

/-- Puts an entry in the place of the one for the same operator, or at the end if there is none. -/
def insertInto (entry : OperatorEntry) : List OperatorEntry → List OperatorEntry
  | [] => [entry]
  | first :: rest =>
      if first.operator = entry.operator then entry :: rest
      else first :: insertInto entry rest

theorem map_operator_insertInto (entry : OperatorEntry) (entries : List OperatorEntry) :
    (entry.insertInto entries).map operator =
      if entry.operator ∈ entries.map operator then entries.map operator
      else entries.map operator ++ [entry.operator] := by
  induction entries with
  | nil => simp [insertInto]
  | cons first rest ih =>
      by_cases same : first.operator = entry.operator
      · simp [insertInto, same]
      · have other : entry.operator ≠ first.operator := fun equal => same equal.symm
        simp only [insertInto, if_neg same, List.map_cons, ih, List.mem_cons, other, false_or]
        split <;> simp

end OperatorEntry

structure OperatorTable where
  entries : List OperatorEntry
  distinct : (entries.map OperatorEntry.operator).Nodup

namespace OperatorTable

def empty : OperatorTable := ⟨[], by simp⟩

/-- Enters an operator, or replaces its entry without moving it. -/
def insert (table : OperatorTable) (entry : OperatorEntry) : OperatorTable where
  entries := entry.insertInto table.entries
  distinct := by
    rw [entry.map_operator_insertInto]
    split
    · exact table.distinct
    · next absent =>
        rw [List.nodup_append]
        refine ⟨table.distinct, by simp, ?_⟩
        intro known member new added equal
        rw [List.mem_singleton] at added
        exact absent (added ▸ equal ▸ member)

def ofList (entries : List OperatorEntry) : OperatorTable := entries.foldl insert empty

def size (table : OperatorTable) : Nat := table.entries.length

def entry? (table : OperatorTable) (operator : Operator) : Option OperatorEntry :=
  table.entries.find? (·.operator == operator)

def lookup? (table : OperatorTable) (symbol : Char) : Option OperatorEntry :=
  table.entries.find? (·.symbol == symbol)

/-- The operators in order of binding strength, with the functions before the signs. -/
def standardEntries : List OperatorEntry :=
  [⟨.factorial, 6, .left, "factorial"⟩,
    ⟨.function .sin, 5, .right, "sin"⟩,
    ⟨.function .sinh, 5, .right, "sinh"⟩,
    ⟨.function .cos, 5, .right, "cos"⟩,
    ⟨.function .cosh, 5, .right, "cosh"⟩,
    ⟨.function .tan, 5, .right, "tan"⟩,
    ⟨.function .tanh, 5, .right, "tanh"⟩,
    ⟨.function .ln, 5, .right, "ln"⟩,
    ⟨.function .log10, 5, .right, "log10"⟩,
    ⟨.binary .power, 4, .right, "power"⟩,
    ⟨.binary .root, 4, .left, "root"⟩,
    ⟨.binary .multiply, 3, .left, "multiply"⟩,
    ⟨.binary .divide, 3, .left, "divide"⟩,
    ⟨.binary .add, 2, .left, "add"⟩,
    ⟨.binary .subtract, 2, .left, "subtract"⟩]

def standard : OperatorTable := ofList standardEntries

theorem entry?_operator {table : OperatorTable} {operator : Operator} {entry : OperatorEntry}
    (found : table.entry? operator = some entry) : entry.operator = operator := by
  have matched := List.find?_some found
  exact eq_of_beq matched

theorem lookup?_symbol {table : OperatorTable} {symbol : Char} {entry : OperatorEntry}
    (found : table.lookup? symbol = some entry) : entry.symbol = symbol := by
  have matched := List.find?_some found
  exact eq_of_beq matched

/-- An operator has the entry that its symbol has. -/
theorem lookup?_symbol_eq (table : OperatorTable) (operator : Operator) :
    table.lookup? operator.symbol = table.entry? operator := by
  have same (entry : OperatorEntry) :
      (entry.symbol == operator.symbol) = (entry.operator == operator) := by
    rw [Bool.eq_iff_iff, beq_iff_eq, beq_iff_eq]
    exact ⟨Operator.symbol_injective, fun equal => congrArg Operator.symbol equal⟩
  simp only [lookup?, entry?, same]

end OperatorTable
end InfixCalculator
