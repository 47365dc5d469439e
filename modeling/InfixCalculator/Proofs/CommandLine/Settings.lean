import InfixCalculator.Proofs.CommandLine.Rules
import InfixCalculator.Proofs.CommandLine.Transcript

namespace InfixCalculator.CommandLine

/-! Expressions among options.

Most expressions that begin with a minus can be told from options (`Plain`). Such an expression is the same
one in front of the options, behind them, and behind two minuses that end them (`run_plain`). -/

open InfixCalculator.Outcome

/-- The written form of a number of places that can be printed. -/
structure Places where
  digits : List Char
  nonempty : digits ≠ []
  decimal : digits.all Decimal.isDigit = true
  printable : Nat.ofDigitChars 10 digits 0 ≤ 65535

def Places.value (places : Places) : Nat := Nat.ofDigitChars 10 places.digits 0

/-- How an option is spelled: by a letter, by a word, or by a word with its value in the same argument. -/
inductive Spelling where
  | letter | word | joined
deriving DecidableEq

inductive Setting where
  | precision (places : Places) (spelling : Spelling)
  | rpn (long : Bool)
  | verbose (long : Bool)

namespace Setting

def arguments : Setting → List String
  | .precision places .letter => ["-p", String.ofList places.digits]
  | .precision places .word => ["--precision", String.ofList places.digits]
  | .precision places .joined => [String.ofList ("--precision=".toList ++ places.digits)]
  | .rpn long => [if long then "--rpn" else "-r"]
  | .verbose long => [if long then "--verbose" else "-v"]

def places? : Setting → Option Nat
  | .precision places _ => some places.value
  | .rpn _ | .verbose _ => none

def isRpn : Setting → Bool
  | .rpn _ => true
  | .precision _ _ | .verbose _ => false

end Setting

/-- Options in any order. Only the verbosity may be given more than once. -/
structure Settings where
  given : List Setting
  precisionOnce : given.countP (·.places?.isSome) ≤ 1
  rpnOnce : given.countP Setting.isRpn ≤ 1

namespace Settings

def arguments (settings : Settings) : List String := settings.given.flatMap Setting.arguments

def options (settings : Settings) : Options :=
  ⟨(settings.given.findSome? Setting.places?).getD 10, settings.given.any Setting.isRpn⟩

end Settings

/-- The spelling of no option, even if it begins with a minus. -/
inductive Plain : List Char → Prop where
  | unsigned {text : List Char} (start : text.head? ≠ some '-') : Plain text
  | minus : Plain ['-']
  | letters {first : Char} {rest : List Char} (single : first ≠ '-')
      (other : ∃ letter ∈ first :: rest, letter ∉ ['p', 'r', 'v', 'h', 'V']) :
      Plain ('-' :: first :: rest)
  | word {word : List Char} (named : word.takeWhile (· != '=') ≠ [])
      (unknown : String.ofList (word.takeWhile (· != '=')) ∉
        ["precision", "rpn", "verbose", "help", "version"]) :
      Plain ('-' :: '-' :: word)

theorem Plain.isExpression {text : List Char} (plain : Plain text) : IsExpression false text := by
  cases plain with
  | unsigned start => exact .unsigned start
  | minus => exact .minus
  | letters single other => exact .letters single rfl other
  | @word word named unknown =>
      refine .word ?_ unknown
      rintro rfl
      exact named rfl

theorem Places.spells (places : Places) : SpellsPlaces places.digits places.value :=
  ⟨⟨places.digits, .inl rfl, places.nonempty, List.all_eq_true.mp places.decimal, rfl⟩,
    Nat.le_trans places.printable (by decide)⟩

namespace Setting

def item : Setting → Item
  | .precision places _ => .precision places.digits
  | .rpn _ => .rpn
  | .verbose _ => .verbose

variable {taken : Bool} {rest : List String} {items : List Item}

theorem isOption_letter {letter : Char} {word : List Char} {item : Item}
    (names : Names letter word item) : IsOption taken ['-', letter] [item] false := by
  have cluster : Cluster [letter] [item] false := .flag names .done
  cases names with
  | rpn | verbose | help | version =>
      exact .letters (by decide) (fun _ => List.forall_mem_singleton.mpr (by decide)) cluster

theorem spelled (setting : Setting) (more : Spelled taken rest items) :
    Spelled taken (setting.arguments ++ rest) (setting.item :: items) := by
  cases setting with
  | precision places spelling =>
      have value : (String.ofList places.digits).toList = places.digits := String.toList_ofList
      have letter : IsOption taken ['-', 'p'] [] true :=
        .letters (by decide) (fun _ => List.forall_mem_singleton.mpr (by decide)) .waits
      have word : IsOption taken ('-' :: '-' :: "precision".toList) [] true := .word .waits
      have joined : IsOption taken ('-' :: '-' :: ("precision".toList ++ '=' :: places.digits))
          [.precision places.digits] false := .word .assigned
      rw [item]
      cases spelling with
      | letter =>
          rw [← value]
          exact @Spelled.valued taken "-p" _ rest [] items letter more
      | word =>
          rw [← value]
          exact @Spelled.valued taken "--precision" _ rest [] items word more
      | joined =>
          rw [← @String.toList_ofList ('-' :: '-' :: _)] at joined
          exact .options joined more
  | rpn long =>
      cases long with
      | false => exact @Spelled.options taken "-r" rest [.rpn] items (isOption_letter .rpn) more
      | true => exact @Spelled.options taken "--rpn" rest [.rpn] items (.word (.flag .rpn)) more
  | verbose long =>
      cases long with
      | false => exact @Spelled.options taken "-v" rest [.verbose] items (isOption_letter .verbose) more
      | true =>
          exact @Spelled.options taken "--verbose" rest [.verbose] items (.word (.flag .verbose)) more

theorem spelled_all (given : List Setting) (more : Spelled taken rest items) :
    Spelled taken (given.flatMap arguments ++ rest) (given.map item ++ items) := by
  induction given with
  | nil => exact more
  | cons setting given ih =>
      rw [List.flatMap_cons, List.append_assoc]
      exact setting.spelled ih

end Setting

variable {settings : Settings} {expression : String} {before after : List Setting}

theorem mem_among (split : before ++ after = settings.given) {item : Item} :
    item ∈ before.map Setting.item ++ .expression expression :: after.map Setting.item ↔
      item = .expression expression ∨ ∃ setting ∈ settings.given, setting.item = item := by
  simp only [← split, List.mem_append, List.mem_cons, List.mem_map, or_and_right, exists_or]
  exact or_left_comm

theorem unstopped_among (split : before ++ after = settings.given) :
    Unstopped (before.map Setting.item ++ .expression expression :: after.map Setting.item) := by
  have kinds : (Item.isExpression ∘ Setting.item = fun _ => false) ∧
      (Item.isPrecision ∘ Setting.item = fun setting => setting.places?.isSome) ∧
      Item.isRpn ∘ Setting.item = Setting.isRpn := by
    refine ⟨?_, ?_, ?_⟩ <;> funext setting <;> cases setting <;> rfl
  have once := settings.precisionOnce
  have once' := settings.rpnOnce
  rw [← split, List.countP_append] at once once'
  apply unstopped_of_once
  · intro item member stop stops
    rcases (mem_among split).mp member with rfl | ⟨setting, _, rfl⟩
    · cases stops with
      | expression again => cases again
    · cases setting with
      | precision places =>
          cases stops with
          | unreadable unreadable => exact unreadable places.value places.spells
          | precision again => cases again
      | rpn =>
          cases stops with
          | rpn again => cases again
      | verbose => cases stops
  · rw [List.countP_append, List.countP_cons_of_pos rfl]
    simp [List.countP_map, kinds.1]
  · simpa [List.countP_map, kinds.2.1, Item.isPrecision] using once
  · simpa [List.countP_map, kinds.2.2, Item.isRpn] using once'

theorem sets_among (split : before ++ after = settings.given) :
    Sets (before.map Setting.item ++ .expression expression :: after.map Setting.item)
      settings.options := by
  have member {item : Item} (other : item ≠ .expression expression) :=
    (@mem_among settings expression before after split item).trans (or_iff_right other)
  constructor
  · cases found : settings.given.findSome? Setting.places? with
    | some number =>
        obtain ⟨setting, given, same⟩ := List.exists_of_findSome?_eq_some found
        cases setting with
        | precision places spelling =>
            cases same
            refine .inl ⟨places.digits, (member (by simp)).mpr ⟨_, given, rfl⟩, ?_⟩
            rw [Settings.options, found]
            exact places.spells
        | rpn | verbose => cases same
    | none =>
        refine .inr ⟨fun text given => ?_, by rw [Settings.options, found]; rfl⟩
        obtain ⟨setting, given, same⟩ := (member (by simp)).mp given
        have unset := List.findSome?_eq_none_iff.mp found setting given
        cases setting with
        | precision => cases unset
        | rpn | verbose => cases same
  · rw [Settings.options, member (by simp), List.any_eq_true]
    constructor
    · rintro ⟨setting, given, isRpn⟩
      cases setting with
      | rpn => exact ⟨_, given, rfl⟩
      | precision | verbose => cases isRpn
    · rintro ⟨setting, given, same⟩
      cases setting with
      | rpn => exact ⟨_, given, rfl⟩
      | precision | verbose => cases same

theorem asks_among (split : before ++ after = settings.given) :
    Asks (before.map Setting.item ++ .expression expression :: after.map Setting.item)
      (.calculate expression settings.options) :=
  .calculate (unstopped_among split) (by simp) (sets_among split)

namespace Request

/-- The expression may stand anywhere among its options. -/
theorem ofArguments_among (plain : Plain expression.toList) (split : before ++ after = settings.given) :
    ofArguments (before.flatMap Setting.arguments ++ expression :: after.flatMap Setting.arguments) =
      .calculate expression settings.options := by
  have behind := @Setting.spelled_all true [] [] after .done
  rw [List.append_nil, List.append_nil] at behind
  exact ofArguments_eq_iff.mpr
    ⟨_, Setting.spelled_all before (.expression plain.isExpression behind), asks_among split⟩

/-- Behind two minuses it need not be told from options. -/
theorem ofArguments_behind_dashes (settings : Settings) (expression : String) :
    ofArguments (settings.arguments ++ ["--", expression]) =
      .calculate expression settings.options :=
  ofArguments_eq_iff.mpr
    ⟨_, Setting.spelled_all settings.given .dashes, asks_among (List.append_nil settings.given)⟩

end Request

/-- An expression that cannot be taken for options is answered in the same way wherever it stands among
them, and any expression is behind two minuses. The program ends with zero just if it has a value. -/
theorem run_plain (help : String) (settings : Settings) {expression : String}
    (plain : Plain expression.toList) (input : List UInt8) :
    let outcome := answer Calculator.standard settings.options expression
    run help (settings.arguments ++ [expression]) input = outcome ∧
    run help (expression :: settings.arguments) input = outcome ∧
    run help (settings.arguments ++ ["--", expression]) input = outcome ∧
    (∀ before after, before ++ after = settings.given →
      run help (before.flatMap Setting.arguments ++ expression :: after.flatMap Setting.arguments) input =
        outcome) ∧
    (outcome.exitCode = 0 ↔ ∃ value, Calculator.standard.evaluate expression = .ok value) ∧
    (outcome.exitCode = 1 ↔ ∃ reason, Calculator.standard.evaluate expression = .error reason) := by
  intro outcome
  have among {before after : List Setting} (split : before ++ after = settings.given) :
      run help (before.flatMap Setting.arguments ++ expression :: after.flatMap Setting.arguments) input =
        outcome := by
    rw [run, Request.ofArguments_among plain split]
  refine ⟨among (List.append_nil _), among (List.nil_append _), ?_, fun before after => among, ?_⟩
  · rw [run, Request.ofArguments_behind_dashes]
  · have ended : outcome.exitCode =
        (verdict settings.options (Calculator.standard.evaluate expression)).exitCode := by
      rw [show outcome = _ from answer_eq _ _ expression]
    rw [ended]
    cases Calculator.standard.evaluate expression with
    | ok value => simp
    | error reason => simp

/-- A quotient with a minus in front of it, whose first letter alone would ask for a precision. -/
theorem run_plain_quotient :
    Plain "-p/7".toList ∧
    run "" ["-v", "-p", "003", "--rpn", "-v", "-p/7"] [] =
      answer Calculator.standard ⟨3, true⟩ "-p/7" ∧
    run "" ["-p/7", "-v", "-p", "003", "--rpn", "-v"] [] =
      answer Calculator.standard ⟨3, true⟩ "-p/7" := by
  have plain : Plain "-p/7".toList := .letters (by decide) ⟨'/', by decide, by decide⟩
  let settings : Settings :=
    ⟨[.verbose false, .precision ⟨"003".toList, by decide, by decide, by decide⟩ .letter, .rpn true,
      .verbose false], by decide, by decide⟩
  have everywhere := run_plain "" settings plain []
  exact ⟨plain, everywhere.1, everywhere.2.1⟩

end InfixCalculator.CommandLine
