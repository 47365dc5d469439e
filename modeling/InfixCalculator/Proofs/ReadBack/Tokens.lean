import InfixCalculator.Proofs.ReadBack

namespace InfixCalculator

/-! Tokens that read back.

The text of tokens sets them apart by blanks, which reading ignores. Two tokens become one nevertheless
only if both are numbers, and a minus is read as what it was if it stands where a minus of its kind
can stand (`Token.read_listText`). -/

/-- Whether a token can stand directly behind `before`, or at the beginning if there is nothing before
it: a number not behind a number, and with a sign not behind an operand, a subtraction only behind an
operand, and any other operator if the table has it. -/
def Token.MayFollow (table : OperatorTable) (before : Option Token) : Token → Prop
  | .number value =>
      value.isFinite = true ∧ (∀ other, before ≠ some (.number other)) ∧
        (Binary64.isNegative value = true → before.any completesOperand = false)
  | .operator (.binary .subtract) => before.any completesOperand = true
  | .operator operation => (table.entry? operation).isSome = true
  | .constant | .openParen | .closeParen => True

/-- Each token can stand where it stands. -/
def Token.Readable (table : OperatorTable) (tokens : List Token) : Prop :=
  ∀ before token after, tokens = before ++ token :: after → token.MayFollow table before.getLast?

variable {table : OperatorTable}

namespace Token

/-- The tokens can stand behind `before`. -/
def Continues (table : OperatorTable) : Option Token → List Token → Prop
  | _, [] => True
  | before, token :: rest => token.MayFollow table before ∧ Continues table (some token) rest

theorem Continues.mayFollow {previous : Option Token} {before : List Token} {token : Token}
    {after : List Token} (continues : Continues table previous (before ++ token :: after)) :
    token.MayFollow table (before.getLast?.or previous) := by
  induction before generalizing previous with
  | nil => exact continues.1
  | cons first rest ih =>
      have placed := ih continues.2
      rw [List.getLast?_cons]
      cases latest : rest.getLast? <;> rwa [latest] at placed

theorem readable_iff_continues {tokens : List Token} :
    Readable table tokens ↔ Continues table none tokens := by
  constructor
  · intro readable
    suffices general : ∀ done rest, tokens = done ++ rest → Continues table done.getLast? rest from
      general [] tokens rfl
    intro done rest split
    induction rest generalizing done with
    | nil => trivial
    | cons token rest ih =>
        refine ⟨readable done token rest split, ?_⟩
        have next := ih (done ++ [token]) (by rw [split, List.append_assoc, List.singleton_append])
        rwa [List.getLast?_concat] at next
  · rintro continues before token after rfl
    have placed := continues.mayFollow
    rwa [Option.or_none] at placed

end Token

theorem Text.visible_intercalate (texts : List (List Char)) :
    visible ([' '].intercalate texts) = texts.flatMap visible := by
  induction texts with
  | nil => rfl
  | cons first rest ih =>
      cases rest with
      | nil => simp
      | cons second rest =>
          have blank : visible [' '] = [] := rfl
          rw [List.intercalate_cons_cons, visible_append, visible_append, ih, blank]
          simp only [List.append_nil, List.flatMap_cons]

namespace Token

theorem visible_text {before : Option Token} {token : Token}
    (placed : token.MayFollow table before) :
    Text.visible token.text.toList = token.text.toList := by
  cases token with
  | number value => exact Numeral.visible_text placed.1
  | constant | openParen | closeParen => rfl
  | operator operation =>
      cases operation with
      | function named => cases named <;> rfl
      | binary sign => cases sign <;> rfl
      | factorial => rfl

theorem visible_listText {tokens : List Token} (continues : Continues table none tokens) :
    Text.visible (listText tokens).toList = tokens.flatMap (·.text.toList) := by
  have texts {before} {tokens : List Token} (continues : Continues table before tokens) :
      tokens.flatMap (fun token => Text.visible token.text.toList) =
        tokens.flatMap (·.text.toList) := by
    induction tokens generalizing before with
    | nil => rfl
    | cons token rest ih =>
        rw [List.flatMap_cons, List.flatMap_cons, visible_text continues.1, ih continues.2]
  rw [listText, String.toList_intercalate, List.map_map]
  change Text.visible ([' '].intercalate _) = _
  rw [Text.visible_intercalate, List.flatMap_map, ← texts continues]
  rfl

/-- What can stand behind a number does not lengthen its numeral. -/
theorem endsNumeral_texts {value : Float} {tokens : List Token}
    (continues : Continues table (some (.number value)) tokens) :
    EndsNumeral (tokens.flatMap (·.text.toList)) := by
  cases tokens with
  | nil => exact endsNumeral_nil
  | cons token rest =>
      rw [List.flatMap_cons]
      cases token with
      | number other => exact absurd rfl (continues.1.2.1 value)
      | constant | openParen | closeParen => exact endsNumeral_cons.mpr (by decide)
      | operator operation =>
          rw [text, String.toList_singleton]
          exact endsNumeral_symbol operation _

theorem reads_number {value : Float} (finite : value.isFinite = true) {afterOperand : Bool}
    (signs : Binary64.isNegative value = true → afterOperand = false) {rest : List Char}
    (ends : EndsNumeral rest) {more : List Token} (reads : Reads table true (Lexeme.cut rest) more) :
    Reads table afterOperand (Lexeme.cut ((Numeral.text value).toList ++ rest))
      (.number value :: more) := by
  obtain ⟨digits, numeral, spelled, value_eq⟩ := Numeral.text_eq_signed finite
  rw [spelled]
  cases negative : Binary64.isNegative value with
  | true =>
      rw [negative, if_pos rfl] at value_eq
      have signed : ReadAs table ('-' :: digits) [.number (-Numeral.read digits)] := .negative numeral
      rw [value_eq] at signed
      rw [signs negative, if_pos rfl]
      exact signed rest more ends reads
  | false =>
      rw [negative, if_neg Bool.false_ne_true] at value_eq
      rw [if_neg Bool.false_ne_true, List.nil_append, Lexeme.cut_numeral_append numeral ends]
      exact .token (congrArg (fun x => Except.ok (Token.number x)) value_eq) nofun reads

theorem MayFollow.known {before : Option Token} {operation : Operator}
    (placed : (Token.operator operation).MayFollow table before)
    (other : operation ≠ .binary .subtract) : (table.entry? operation).isSome = true := by
  cases operation with
  | function | factorial => exact placed
  | binary sign =>
      cases sign with
      | subtract => exact absurd rfl other
      | add | multiply | divide | power | root => exact placed

/-- The texts of tokens, one behind the other, are read as these tokens. -/
theorem reads_texts {before : Option Token} {tokens : List Token}
    (continues : Continues table before tokens) :
    Reads table (before.any completesOperand) (Lexeme.cut (tokens.flatMap (·.text.toList)))
      tokens := by
  induction tokens generalizing before with
  | nil =>
      rw [List.flatMap_nil, Lexeme.cut]
      exact .done
  | cons token rest ih =>
      obtain ⟨placed, continues⟩ := continues
      have reads := ih continues
      rw [List.flatMap_cons]
      cases token with
      | number value =>
          exact reads_number placed.1 placed.2.2 (endsNumeral_texts continues) reads
      | constant | openParen | closeParen =>
          exact .char (endsNumeral_cons.mpr (by decide)) rfl (by decide) reads
      | operator operation =>
          rw [text, String.toList_singleton]
          exact .operator operation placed.known (fun minus => by subst minus; exact placed) reads

/-- Tokens that can stand in an expression are read from their text, every number with its bits. -/
theorem read_listText {tokens : List Token} (readable : Readable table tokens) :
    Token.read table (listText tokens).toList = .ok tokens := by
  have continues := readable_iff_continues.mp readable
  rw [read_eq_ok_iff, visible_listText continues]
  exact reads_texts continues

/-- `( -0 ) - -2.5 * S p`, with a minus of each kind. -/
theorem read_listText_signs :
    let tokens : List Token := [.openParen, .number (-0.0), .closeParen,
      .operator (.binary .subtract), .number (-2.5), .operator (.binary .multiply),
      .operator (.function .sin), .constant]
    Readable .standard tokens ∧ listText tokens = "( -0 ) - -2.5 * S p" ∧
      Token.read .standard (listText tokens).toList = .ok tokens := by
  intro tokens
  have readable : Readable .standard tokens := by
    refine readable_iff_continues.mpr ⟨trivial, ⟨?_, nofun, fun _ => rfl⟩, trivial, rfl,
      ⟨?_, nofun, fun _ => rfl⟩, rfl, rfl, trivial, trivial⟩
    · decide +kernel
    · decide +kernel
  exact ⟨readable, by decide +kernel, read_listText readable⟩

end Token
end InfixCalculator
