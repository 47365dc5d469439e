import InfixCalculator.Proofs.Lexing.LongestMatch
import InfixCalculator.Proofs.Outcome.First
import InfixCalculator.Proofs.Text

namespace InfixCalculator

/-! The first breach of the notation in a text.

A text is read if its lexemes are known and every minus that is a sign stands right before a number or
the constant. Whether a minus is a sign is seen from the lexeme before it. Reading stops at the first
lexeme at which this is broken, and the error has the offset of that lexeme, or that of the sign which
it leaves without its number (`Token.read_breaches`). -/

open Outcome

variable {table : OperatorTable}

namespace Lexeme

/-- Whether an operand may end with the lexeme. The symbol of the factorial is no end of an operand in a
table without it. -/
def EndsOperand (table : OperatorTable) : Lexeme → Prop
  | .numeral _ | .constant | .closeParen => True
  | .symbol character => character = '!' ∧ (table.entry? .factorial).isSome
  | .minus | .openParen | .stray _ => False

/-- Whether a sign may stand right before the lexeme. -/
def TakesSign : Lexeme → Prop
  | .numeral _ | .constant => True
  | .minus | .openParen | .closeParen | .symbol _ | .stray _ => False

/-- The known lexemes before which there can be no sign, and what is found in place of a number. -/
inductive RefusesSign (table : OperatorTable) : Lexeme → Token → Prop where
  | operator {character : Char} {entry : OperatorEntry}
      (known : table.lookup? character = some entry) :
      RefusesSign table (.symbol character) (.operator entry.operator)
  | minus : RefusesSign table .minus (.operator (.binary .subtract))
  | openParen : RefusesSign table .openParen .openParen
  | closeParen : RefusesSign table .closeParen .closeParen

theorem RefusesSign.text_eq {lexeme : Lexeme} {found : Token} (refuses : lexeme.RefusesSign table found) :
    found.text = String.ofList lexeme.spelling := by
  cases refuses with
  | operator known =>
      rw [Token.text, spelling, ← OperatorTable.lookup?_symbol known, String.singleton_eq_ofList]
      rfl
  | minus | openParen | closeParen => rfl

theorem RefusesSign.unique {lexeme : Lexeme} {found other : Token}
    (refuses : lexeme.RefusesSign table found) (refuses' : lexeme.RefusesSign table other) :
    found = other := by
  cases refuses with
  | operator known =>
      cases refuses' with
      | operator known' =>
          rw [known, Option.some.injEq] at known'
          rw [known']
  | minus | openParen | closeParen =>
      cases refuses'
      rfl

theorem RefusesSign.not_takesSign {lexeme : Lexeme} {found : Token}
    (refuses : lexeme.RefusesSign table found) : ¬lexeme.TakesSign := by
  cases refuses with
  | operator | minus | openParen | closeParen => exact id

end Lexeme

namespace Reading

variable {items : List (Lexeme × Nat)} {item : Lexeme × Nat} {index : Nat}
  {reason other : ReadingError}

/-- The last lexeme is a minus that is a sign, because no operand ends right before it. -/
def EndsWithSign (table : OperatorTable) (items : List (Lexeme × Nat)) (position : Nat) : Prop :=
  ∃ before, items = before ++ [(.minus, position)] ∧
    ∀ item ∈ before.getLast?, ¬item.1.EndsOperand table

/-- The lexemes of the texts that can be read. -/
structure Acceptable (table : OperatorTable) (items : List (Lexeme × Nat)) : Prop where
  numbers : ∀ position, (.stray '.', position) ∉ items
  symbols : ∀ character position, (.symbol character, position) ∈ items →
    (table.lookup? character).isSome
  signs : ∀ front after position, items = front ++ after → EndsWithSign table front position →
    ∃ item ∈ after.head?, item.1.TakesSign

/-- What is broken at a lexeme, from those in front of it, and the error that it makes. -/
inductive Breaks (table : OperatorTable) (front : List (Lexeme × Nat)) :
    Lexeme × Nat → ReadingError → Prop where
  | malformedNumber {position : Nat} :
      Breaks table front (.stray '.', position) (.malformedNumber '.' position)
  | unknownCharacter {character : Char} {position : Nat}
      (unknown : table.lookup? character = none) :
      Breaks table front (.symbol character, position) (.unknownCharacter character position)
  | misplacedSign {lexeme : Lexeme} {found : Token} {position sign : Nat}
      (refuses : lexeme.RefusesSign table found) (signed : EndsWithSign table front sign) :
      Breaks table front (lexeme, position) (.misplacedSign found sign)

/-- What is broken at the lexeme with an index, or behind the last one. -/
inductive Breach (table : OperatorTable) (items : List (Lexeme × Nat)) (index : Nat) :
    ReadingError → Prop where
  | lexeme {reason : ReadingError} (broken : BrokenAt (Breaks table) items index reason) :
      Breach table items index reason
  | danglingSign {sign : Nat} (ends : index = items.length)
      (signed : EndsWithSign table items sign) : Breach table items index (.danglingSign sign)

theorem EndsWithSign.unique {position position' : Nat} (signed : EndsWithSign table items position)
    (signed' : EndsWithSign table items position') : position = position' := by
  obtain ⟨before, rfl, _⟩ := signed
  obtain ⟨before', same, _⟩ := signed'
  simpa using (List.append_inj' same rfl).2

theorem endsWithSign_concat {position : Nat} : EndsWithSign table (items ++ [item]) position ↔
    item = (.minus, position) ∧ ∀ latest ∈ items.getLast?, ¬latest.1.EndsOperand table := by
  constructor
  · rintro ⟨before, same, free⟩
    obtain ⟨rfl, last⟩ := List.append_inj' same rfl
    exact ⟨List.singleton_inj.mp last, free⟩
  · rintro ⟨rfl, free⟩
    exact ⟨items, rfl, free⟩

theorem Breaks.unique (breaks : Breaks table items item reason)
    (breaks' : Breaks table items item other) : reason = other := by
  cases breaks with
  | malformedNumber =>
      cases breaks' with
      | malformedNumber => rfl
      | misplacedSign refuses => cases refuses
  | unknownCharacter unknown =>
      cases breaks' with
      | unknownCharacter => rfl
      | misplacedSign refuses =>
          cases refuses with
          | operator known => simp [unknown] at known
  | misplacedSign refuses signed =>
      cases breaks' with
      | malformedNumber => cases refuses
      | unknownCharacter unknown =>
          cases refuses with
          | operator known => simp [unknown] at known
      | misplacedSign refuses' signed' => rw [refuses.unique refuses', signed.unique signed']

theorem Breach.unique (breach : Breach table items index reason)
    (breach' : Breach table items index other) : reason = other := by
  cases breach with
  | lexeme broken =>
      cases breach' with
      | lexeme broken' => exact broken.unique broken' fun _ _ _ _ => Breaks.unique
      | danglingSign ends => exact absurd ends (Nat.ne_of_lt broken.lt_length)
  | danglingSign ends signed =>
      cases breach' with
      | lexeme broken => exact absurd ends (Nat.ne_of_lt broken.lt_length)
      | danglingSign _ signed' => rw [signed.unique signed']

/-- The error is that of the breach with the least index. -/
def FirstBreach (table : OperatorTable) (items : List (Lexeme × Nat)) : ReadingError → Prop :=
  First (Breach table items)

/-- A state says of the lexemes so far whether an operand ends with them, and whether a sign does. -/
structure Follows (table : OperatorTable) (items : List (Lexeme × Nat)) (state : Reading) : Prop where
  afterOperand : state.afterOperand = true ↔ ∃ item ∈ items.getLast?, item.1.EndsOperand table
  sign : ∀ position, state.sign = some position ↔ EndsWithSign table items position

theorem follows_concat {state : Reading} : Follows table (items ++ [item]) state ↔
    (state.afterOperand = true ↔ item.1.EndsOperand table) ∧
      ∀ position, state.sign = some position ↔
        item = (.minus, position) ∧ ∀ latest ∈ items.getLast?, ¬latest.1.EndsOperand table := by
  constructor
  · rintro ⟨afterOperand, sign⟩
    exact ⟨by simpa using afterOperand, fun position => (sign position).trans endsWithSign_concat⟩
  · rintro ⟨afterOperand, sign⟩
    exact ⟨by simpa using afterOperand, fun position => (sign position).trans endsWithSign_concat.symm⟩

/-- A symbol is that of the factorial just if its entry is. -/
theorem operator_eq_factorial_iff {character : Char} {entry : OperatorEntry}
    (found : table.lookup? character = some entry) :
    entry.operator = .factorial ↔ character = '!' ∧ (table.entry? .factorial).isSome := by
  have symbol : entry.operator.symbol = character := OperatorTable.lookup?_symbol found
  constructor
  · intro factorial
    rw [factorial] at symbol
    subst symbol
    rw [← OperatorTable.lookup?_symbol_eq, found]
    exact ⟨rfl, rfl⟩
  · rintro ⟨rfl, _⟩
    exact Operator.symbol_injective symbol

theorem completesOperand_of_resolve {lexeme : Lexeme} {position : Nat} {token : Token}
    (resolved : resolve table position lexeme = .ok token) :
    token.completesOperand = true ↔ lexeme.EndsOperand table := by
  cases lexeme with
  | numeral | constant | minus | openParen | closeParen =>
      cases resolved
      simp [Token.completesOperand, Lexeme.EndsOperand]
  | symbol character =>
      obtain ⟨entry, found, rfl⟩ := resolve_symbol_eq_ok resolved
      rw [Lexeme.EndsOperand, ← operator_eq_factorial_iff found]
      cases entry.operator <;> simp [Token.completesOperand]
  | stray character => exact absurd resolved resolve_stray_ne_ok

/-- A word that no sign can stand before is one whose lexeme refuses it. -/
theorem negated?_eq_none_iff {lexeme : Lexeme} {position : Nat} {token : Token}
    (resolved : resolve table position lexeme = .ok token) :
    token.negated? = none ↔ lexeme.RefusesSign table token := by
  cases lexeme with
  | numeral | constant =>
      cases resolved
      exact ⟨fun none => by simp [Token.negated?] at none, fun refuses => by cases refuses⟩
  | minus =>
      cases resolved
      exact ⟨fun _ => .minus, fun _ => rfl⟩
  | openParen =>
      cases resolved
      exact ⟨fun _ => .openParen, fun _ => rfl⟩
  | closeParen =>
      cases resolved
      exact ⟨fun _ => .closeParen, fun _ => rfl⟩
  | symbol character =>
      obtain ⟨entry, found, rfl⟩ := resolve_symbol_eq_ok resolved
      exact ⟨fun _ => .operator found, fun _ => rfl⟩
  | stray character => exact absurd resolved resolve_stray_ne_ok

theorem resolve_of_refusesSign {lexeme : Lexeme} {found : Token}
    (refuses : lexeme.RefusesSign table found) (position : Nat) :
    resolve table position lexeme = .ok found := by
  cases refuses with
  | operator known => simp [resolve, known]
  | minus | openParen | closeParen => rfl

/-- A lexeme that is no word is broken whatever stands before it. -/
theorem breaks_of_resolve {lexeme : Lexeme} {position : Nat}
    (point : ∀ character, lexeme = .stray character → character = '.')
    (failed : resolve table position lexeme = .error reason) :
    Breaks table items (lexeme, position) reason := by
  cases lexeme with
  | numeral | constant | minus | openParen | closeParen => cases failed
  | symbol character =>
      cases found : table.lookup? character with
      | none =>
          simp only [resolve, found, Except.error.injEq] at failed
          exact failed ▸ .unknownCharacter found
      | some entry => simp [resolve, found] at failed
  | stray character =>
      obtain rfl := point character rfl
      cases failed
      exact .malformedNumber

variable {state next : Reading} {token : Token}

theorem add_eq_error : state.add token = .error reason ↔
    ∃ position, state.sign = some position ∧ token.negated? = none ∧
      reason = .misplacedSign token position := by
  unfold add
  cases state.sign with
  | none => simp
  | some position => cases token.negated? <;> simp [eq_comm]

/-- A word that is added ends an operand with its sign just if it does without. -/
theorem afterOperand_of_add (added : state.add token = .ok next) :
    next.sign = none ∧ next.afterOperand = token.completesOperand ∧
      (state.sign = none ∨ token.negated? ≠ none) := by
  unfold add at added
  cases waiting : state.sign with
  | none =>
      simp only [waiting, Except.ok.injEq] at added
      subst added
      exact ⟨rfl, rfl, .inl rfl⟩
  | some position =>
      cases token with
      | number | constant =>
          simp only [waiting, Token.negated?, Except.ok.injEq] at added
          subst added
          exact ⟨rfl, rfl, .inr (Option.some_ne_none _)⟩
      | operator | openParen | closeParen => simp [waiting, Token.negated?] at added

theorem step_sign (position : Nat) (before : state.afterOperand = false) (idle : state.sign = none) :
    step table state (.minus, position) = .ok { state with sign := some position } :=
  if_pos ⟨rfl, before, idle⟩

theorem step_word (word : ¬(item.1 = .minus ∧ state.afterOperand = false ∧ state.sign = none)) :
    step table state item = resolve table item.2 item.1 >>= state.add := by
  rw [step, if_neg word]
  cases resolve table item.2 item.1 <;> rfl

theorem breaks_iff_step (follows : Follows table items state)
    (point : ∀ character, item.1 = .stray character → character = '.') :
    Breaks table items item reason ↔ step table state item = .error reason := by
  constructor
  · intro breaks
    cases breaks with
    | malformedNumber => rfl
    | unknownCharacter unknown => simp [step, resolve, unknown]
    | @misplacedSign lexeme found position sign refuses signed =>
        have waiting : state.sign = some sign := (follows.sign sign).mpr signed
        have resolved := resolve_of_refusesSign refuses position
        rw [step_word (by simp [waiting]), resolved, ok_bind, add_eq_error]
        exact ⟨sign, waiting, (negated?_eq_none_iff resolved).mpr refuses, rfl⟩
  · intro failed
    obtain ⟨lexeme, position⟩ := item
    by_cases unary : lexeme = .minus ∧ state.afterOperand = false ∧ state.sign = none
    · obtain ⟨rfl, before, idle⟩ := unary
      rw [step_sign position before idle] at failed
      cases failed
    · rw [step_word unary] at failed
      rcases bind_eq_error.mp failed with unresolved | ⟨token, resolved, refused⟩
      · exact breaks_of_resolve point unresolved
      · obtain ⟨sign, waiting, none, rfl⟩ := add_eq_error.mp refused
        exact .misplacedSign ((negated?_eq_none_iff resolved).mp none) ((follows.sign sign).mp waiting)

theorem Follows.step (follows : Follows table items state)
    (stepped : Reading.step table state item = .ok next) : Follows table (items ++ [item]) next := by
  obtain ⟨lexeme, position⟩ := item
  have free : state.afterOperand = false ↔ ∀ latest ∈ items.getLast?, ¬latest.1.EndsOperand table := by
    rw [← Bool.not_eq_true, follows.afterOperand]
    simp
  rw [follows_concat, ← free]
  by_cases unary : lexeme = .minus ∧ state.afterOperand = false ∧ state.sign = none
  · obtain ⟨rfl, before, idle⟩ := unary
    rw [step_sign position before idle] at stepped
    cases stepped
    refine ⟨?_, by simp [before]⟩
    change state.afterOperand = true ↔ False
    simp [before]
  · rw [step_word unary] at stepped
    obtain ⟨token, resolved, added⟩ := bind_eq_ok.mp stepped
    obtain ⟨none, ends, fits⟩ := afterOperand_of_add added
    refine ⟨ends ▸ completesOperand_of_resolve resolved, fun other => ?_⟩
    rw [none]
    refine iff_of_false (Option.some_ne_none other).symm ?_
    -- A minus that is read as a word is behind an operand, as no sign can stand before it.
    rintro ⟨same, before⟩
    cases same
    rcases fits with idle | negated
    · exact absurd ⟨rfl, before, idle⟩ unary
    · exact absurd ((negated?_eq_none_iff resolved).mpr (by cases resolved; exact .minus)) negated

/-- The stray lexemes are points. -/
def OnlyPoints (items : List (Lexeme × Nat)) : Prop :=
  ∀ item ∈ items, ∀ character, item.1 = .stray character → character = '.'

theorem follows_start (table : OperatorTable) : Follows table [] start := by
  refine ⟨by simp [start, afterOperand], fun position => ?_⟩
  simp [start, EndsWithSign]

/-- A run fails for the first lexeme that breaks something. -/
theorem run_first (points : OnlyPoints items) :
    (∀ state, items.foldlM (Reading.step table) start = .ok state →
      Follows table items state ∧ ∀ index reason, ¬BrokenAt (Breaks table) items index reason) ∧
    ∀ reason, items.foldlM (Reading.step table) start = .error reason →
      First (BrokenAt (Breaks table) items) reason := by
  refine foldlM_first (follows_start table) (fun _ _ _ _ => Follows.step) ?_
  intro item member front state reason follows
  exact breaks_iff_step follows (points item member)

/-- A known lexeme takes a sign or refuses one. -/
theorem takesSign_or_refusesSign {lexeme : Lexeme} {position : Nat}
    (point : ∀ character, lexeme = .stray character → character = '.')
    (unbroken : ∀ reason, ¬Breaks table items (lexeme, position) reason) :
    lexeme.TakesSign ∨ ∃ found, lexeme.RefusesSign table found := by
  cases lexeme with
  | numeral | constant => exact .inl trivial
  | minus => exact .inr ⟨_, .minus⟩
  | openParen => exact .inr ⟨_, .openParen⟩
  | closeParen => exact .inr ⟨_, .closeParen⟩
  | symbol character =>
      cases found : table.lookup? character with
      | none => exact absurd (.unknownCharacter found) (unbroken _)
      | some entry => exact .inr ⟨_, .operator found⟩
  | stray character =>
      obtain rfl := point character rfl
      exact absurd .malformedNumber (unbroken _)

theorem Breaks.breach {front after : List (Lexeme × Nat)} (breaks : Breaks table front item reason) :
    Breach table (front ++ item :: after) front.length reason :=
  .lexeme (.of_append breaks)

/-- What can be read is what nothing is broken in. -/
theorem acceptable_iff (points : OnlyPoints items) :
    Acceptable table items ↔ ∀ index reason, ¬Breach table items index reason := by
  constructor
  · intro acceptable index reason breach
    cases breach with
    | lexeme broken =>
        obtain ⟨item, here, breaks⟩ := broken
        have member := List.mem_of_getElem? here
        cases breaks with
        | malformedNumber => exact acceptable.numbers _ member
        | unknownCharacter unknown =>
            have known := acceptable.symbols _ _ member
            simp [unknown] at known
        | misplacedSign refuses signed =>
            have parts : items = items.take index ++ items.drop index :=
              (List.take_append_drop index items).symm
            obtain ⟨next, head, takes⟩ := acceptable.signs _ _ _ parts signed
            rw [List.head?_drop, here, Option.mem_some_iff] at head
            subst head
            exact refuses.not_takesSign takes
    | danglingSign ends signed =>
        obtain ⟨next, head, _⟩ := acceptable.signs items [] _ (List.append_nil _).symm signed
        cases head
  · intro unbroken
    constructor
    · intro position member
      obtain ⟨front, after, rfl⟩ := List.append_of_mem member
      exact unbroken _ _ Breaks.malformedNumber.breach
    · intro character position member
      obtain ⟨front, after, rfl⟩ := List.append_of_mem member
      cases found : table.lookup? character with
      | none => exact absurd (Breaks.unknownCharacter found).breach (unbroken _ _)
      | some entry => rfl
    · rintro front after position rfl signed
      cases after with
      | nil =>
          rw [List.append_nil] at unbroken
          exact absurd (.danglingSign rfl signed) (unbroken front.length _)
      | cons item after =>
          have point := points item (by simp)
          rcases takesSign_or_refusesSign point fun reason breaks => unbroken _ _ breaks.breach with
            takes | ⟨found, refuses⟩
          · exact ⟨item, rfl, takes⟩
          · exact absurd (Breaks.misplacedSign refuses signed).breach (unbroken _ _)

theorem onlyPoints_ofText (text : List Char) : OnlyPoints (Lexeme.ofText text) := by
  intro item member character stray
  have shown := List.mem_map_of_mem (f := Prod.fst) member
  rw [Lexeme.map_fst_ofText] at shown
  exact Lexeme.eq_point_of_stray (stray ▸ shown)

end Reading

open Reading

/-- A text that is read has no breach. -/
theorem Token.unbroken_of_read {text : List Char} {tokens : List Token}
    (made : read table text = .ok tokens) (index : Nat) (reason : ReadingError) :
    ¬Breach table (Lexeme.ofText text) index reason := by
  obtain ⟨state, run, finished⟩ := bind_eq_ok.mp made
  obtain ⟨follows, unbroken⟩ := (run_first (onlyPoints_ofText text)).1 state run
  intro breach
  cases breach with
  | lexeme broken => exact unbroken index reason broken
  | danglingSign _ signed =>
      rw [finish, (follows.sign _).mpr signed] at finished
      cases finished

/-- A text that is not read has the error of its first breach. -/
theorem Token.firstBreach_of_read {text : List Char} {reason : ReadingError}
    (failed : read table text = .error reason) :
    FirstBreach table (Lexeme.ofText text) reason := by
  obtain ⟨succeeds, fails⟩ := @run_first table _ (onlyPoints_ofText text)
  rcases bind_eq_error.mp failed with run | ⟨state, run, unfinished⟩
  · obtain ⟨index, broken, least⟩ := fails reason run
    refine ⟨index, .lexeme broken, fun earlier less other breach => ?_⟩
    cases breach with
    | lexeme broken' => exact least earlier less other broken'
    | danglingSign ends => exact absurd broken.lt_length (Nat.not_lt.mpr (ends ▸ Nat.le_of_lt less))
  · obtain ⟨follows, unbroken⟩ := succeeds state run
    cases waiting : state.sign with
    | none => simp [finish, waiting] at unfinished
    | some sign =>
        rw [finish, waiting] at unfinished
        cases unfinished
        refine ⟨_, .danglingSign rfl ((follows.sign sign).mp waiting), fun earlier less other breach => ?_⟩
        cases breach with
        | lexeme broken => exact unbroken earlier other broken
        | danglingSign ends => exact absurd ends (Nat.ne_of_lt less)

theorem Token.read_eq_error_iff {text : List Char} {reason : ReadingError} :
    read table text = .error reason ↔ FirstBreach table (Lexeme.ofText text) reason := by
  refine ⟨firstBreach_of_read, fun first => ?_⟩
  cases outcome : read table text with
  | ok tokens =>
      obtain ⟨index, breach, _⟩ := first
      exact absurd breach (unbroken_of_read outcome index reason)
  | error other => rw [(firstBreach_of_read outcome).unique first fun _ _ _ => Breach.unique]

/-- Of the lexemes of a text, which are the longest that there are at their offsets, with the blanks of
White_Space left out and the digits of ASCII in numerals: exactly the acceptable texts are read, any other
fails with its first breach, and what is found behind a sign in place of a number is the lexeme there as it
is spelled. -/
theorem Token.read_breaches (table : OperatorTable) (text : List Char) :
    (∀ c, Text.isBlank c = true ↔ c.toNat ∈ Text.whiteSpace) ∧
      (∀ c, Decimal.isDigit c = true ↔ c ∈ ['0', '1', '2', '3', '4', '5', '6', '7', '8', '9']) ∧
      (∀ items, Lexeme.Placed text items ↔ items = Lexeme.ofText text) ∧
      ((∃ tokens, read table text = .ok tokens) ↔ Acceptable table (Lexeme.ofText text)) ∧
      (∀ reason, read table text = .error reason ↔
        FirstBreach table (Lexeme.ofText text) reason) ∧
      ∀ lexeme found, Lexeme.RefusesSign table lexeme found →
        found.text = String.ofList lexeme.spelling := by
  refine ⟨fun c => Text.isBlank_iff, fun c => isDigit_iff,
    fun items => ⟨fun placed => placed.unique (Lexeme.placed_ofText text), ?_⟩, ?_,
    fun reason => read_eq_error_iff, fun lexeme found refuses => refuses.text_eq⟩
  · rintro rfl
    exact Lexeme.placed_ofText text
  · rw [acceptable_iff (onlyPoints_ofText text)]
    constructor
    · rintro ⟨tokens, made⟩
      exact unbroken_of_read made
    · intro unbroken
      cases outcome : read table text with
      | ok tokens => exact ⟨tokens, rfl⟩
      | error reason =>
          obtain ⟨index, breach, _⟩ := firstBreach_of_read outcome
          exact absurd breach (unbroken index reason)

end InfixCalculator
