import InfixCalculator.Proofs.CommandLine.Rules

namespace InfixCalculator.CommandLine

/-! Arguments that ask for a session, with an expression behind them.

Behind `--` nothing is an option, so any expression at all can stand there, and the options that were
given before it hold for it (`Request.ofArguments_withExpression`). -/

open Outcome

/-- The arguments with an expression behind them that is not taken for an option. -/
def Request.withExpression (arguments : List String) (expression : String) : List String :=
  if "--" ∈ arguments then arguments ++ [expression] else arguments ++ ["--", expression]

theorem Request.withExpression_cons {argument : String} {rest : List String} {expression : String}
    (other : argument ≠ "--") :
    withExpression (argument :: rest) expression = argument :: withExpression rest expression := by
  simp only [withExpression, List.mem_cons, other.symm, false_or]
  split <;> rfl

theorem IsExpression.ne_dashes {taken : Bool} {argument : String}
    (isExpression : IsExpression taken argument.toList) : argument ≠ "--" := by
  rintro rfl
  generalize spelled : "--".toList = text at isExpression
  cases isExpression with
  | unsigned start => exact start (spelled ▸ rfl)
  | minus => cases spelled
  | letters single =>
      cases spelled
      exact single rfl
  | word nonempty =>
      cases spelled
      exact nonempty rfl

theorem IsOption.ne_dashes {taken waits : Bool} {argument : String} {items : List Item}
    (isOption : IsOption taken argument.toList items waits) : argument ≠ "--" := by
  rintro rfl
  generalize spelled : "--".toList = text at isOption
  cases isOption with
  | letters single =>
      cases spelled
      exact single rfl
  | word named =>
      cases spelled
      exact named.ne_nil rfl

theorem Spelled.withExpression {taken : Bool} {arguments : List String} {items : List Item}
    (spelled : Spelled taken arguments items) (expression : String) (accepted : .refused ∉ items)
    (readable : .precision ['-', '-'] ∉ items) :
    Spelled taken (Request.withExpression arguments expression) (items ++ [.expression expression]) := by
  induction spelled with
  | done => exact .dashes
  | @dashes taken rest =>
      rw [Request.withExpression, if_pos List.mem_cons_self, List.cons_append, ← List.map_singleton,
        ← List.map_append]
      exact .dashes
  | expression isExpression more ih =>
      rw [Request.withExpression_cons isExpression.ne_dashes]
      exact .expression isExpression (ih (List.not_mem_of_not_mem_cons accepted)
        (List.not_mem_of_not_mem_cons readable))
  | options isOption more ih =>
      rw [List.mem_append, not_or] at accepted readable
      rw [Request.withExpression_cons isOption.ne_dashes, List.append_assoc]
      exact .options isOption (ih accepted.2 readable.2)
  | @valued taken argument value rest parts items isOption more ih =>
      rw [List.mem_append, List.mem_cons, not_or, not_or] at accepted readable
      have other : value ≠ "--" := by
        rintro rfl
        exact readable.2.1 rfl
      rw [Request.withExpression_cons isOption.ne_dashes, Request.withExpression_cons other,
        List.append_assoc]
      exact .valued isOption (ih accepted.2.2 readable.2.2)
  | unvalued => simp at accepted

theorem Unstopped.not_mem {items : List Item} {item : Item} {stop : Stop} (unstopped : Unstopped items)
    (stops : ∀ front, Stops front item stop) : item ∉ items := by
  intro member
  obtain ⟨front, after, rfl⟩ := List.append_of_mem member
  exact unstopped front.length stop (BrokenAt.of_append (stops front))

/-- An expression behind the options of a session is calculated with these options. -/
theorem Request.ofArguments_withExpression {arguments : List String} {options : Options}
    (asked : ofArguments arguments = .session options) (expression : String) :
    ofArguments (withExpression arguments expression) = .calculate expression options := by
  obtain ⟨items, spelled, asks⟩ := ofArguments_eq_iff.mp asked
  generalize same : Request.session options = request at asks
  cases asks with
  | @stop stop => cases stop <;> cases same
  | calculate => cases same
  | session unstopped absent sets =>
      cases same
      have unreadable : ∀ places, ¬SpellsPlaces ['-', '-'] places :=
        places?_eq_none_iff.mp (by decide)
      have behind := spelled.withExpression expression (unstopped.not_mem fun _ => .refused)
        (unstopped.not_mem fun _ => .unreadable unreadable)
      refine ofArguments_eq_iff.mpr ⟨_, behind, .calculate ?_ (by simp) ⟨?_, ?_⟩⟩
      · intro index stop broken
        rcases BrokenAt.concat_iff.mp broken with broken | ⟨_, stops⟩
        · exact unstopped index stop broken
        · cases stops with
          | expression again => exact absent _ again
      · simpa using sets.precision
      · simpa using sets.rpn

/-- Options as they can be given. -/
def Options.arguments (options : Options) : List String :=
  "--precision" :: toString options.precision :: if options.rpn then ["--rpn"] else []

theorem spellsPlaces_toString {places : Nat} (printable : places ≤ 65535) :
    SpellsPlaces (toString places).toList places := by
  have spelled : (toString places).toList = Nat.toDigits 10 places := String.toList_ofList
  rw [spelled]
  refine ⟨⟨_, .inl rfl, Nat.toDigits_ne_nil, fun c member => ?_, Nat.ofDigitChars_ten_toDigits⟩,
    Nat.le_trans printable (by decide)⟩
  exact Nat.isDigit_of_mem_toDigits (by decide) (by decide) member

theorem asks_options {options : Options} {text : List Char}
    (value : SpellsPlaces text options.precision) :
    Asks (.precision text :: if options.rpn then [.rpn] else []) (.session options) := by
  obtain ⟨precision, rpn⟩ := options
  refine .session (unstopped_of_once ?_ ?_ ?_ ?_) (by cases rpn <;> simp)
    ⟨.inl ⟨text, List.mem_cons_self, value⟩, by cases rpn <;> simp⟩
  · intro item member stop stops
    have known : item = .precision text ∨ item = .rpn := by
      cases rpn with
      | false => exact .inl (by simpa using member)
      | true => simpa using member
    rcases known with rfl | rfl
    · cases stops with
      | unreadable unreadable => exact unreadable precision value
      | precision again => cases again
    · cases stops with
      | rpn again => cases again
  · cases rpn <;> exact Nat.zero_le 1
  · cases rpn <;> exact Nat.le_refl 1
  · cases rpn with
    | false => exact Nat.zero_le 1
    | true => exact Nat.le_refl 1

/-- Options without an expression ask for a session with them. -/
theorem Request.ofArguments_options {options : Options} (printable : options.precision ≤ 65535) :
    ofArguments options.arguments = .session options := by
  have waits : IsOption false ('-' :: '-' :: "precision".toList) [] true := .word .waits
  have form : IsOption false ('-' :: '-' :: "rpn".toList) [.rpn] false := .word (.flag .rpn)
  have spelled : Spelled false options.arguments
      (.precision (toString options.precision).toList :: if options.rpn then [.rpn] else []) := by
    refine @Spelled.valued false "--precision" _ _ [] _ waits ?_
    cases options.rpn with
    | false => exact .done
    | true => exact @Spelled.options false "--rpn" [] [.rpn] [] form .done
  exact ofArguments_eq_iff.mpr ⟨_, spelled, asks_options (spellsPlaces_toString printable)⟩

end InfixCalculator.CommandLine
