import InfixCalculator.CommandLine.Session
import InfixCalculator.Proofs.CommandLine.Arguments
import InfixCalculator.Proofs.Text

namespace InfixCalculator

/-! The transcript of a session.

`Session.Division` cuts the input into lines and says up to which line the session goes on, without
a calculator: an expression that fails is answered like any other. What is printed is then the answer
to each line before that one, as the program gives it for a single expression, between the banner and
the closing (`Session.run_transcript`). -/

namespace CommandLine

namespace Session

/-- Bytes as lines: each but the last ends with a line feed, or with a carriage return and a line feed,
and the last may have no end if it is not empty. -/
inductive Lined : List UInt8 → List (List UInt8) → Prop where
  | done : Lined [] []
  | last {line : List UInt8} (nonempty : line ≠ []) (unbroken : 10 ∉ line) : Lined line [line]
  | feed {line rest : List UInt8} {lines : List (List UInt8)} (unbroken : 10 ∉ line)
      (bare : line.getLast? ≠ some 13) (more : Lined rest lines) :
      Lined (line ++ 10 :: rest) (line :: lines)
  | returnFeed {line rest : List UInt8} {lines : List (List UInt8)} (unbroken : 10 ∉ line)
      (more : Lined rest lines) : Lined (line ++ 13 :: 10 :: rest) (line :: lines)

/-- A byte that begins no end of a line begins the line that is cut from there. -/
theorem lines_cons {byte : UInt8} {rest : List UInt8} (unfed : byte ≠ 10)
    (unreturned : byte = 13 → rest.head? ≠ some 10) :
    lines (byte :: rest) = (byte :: (lines rest).headD []) :: (lines rest).tail := by
  rw [lines]
  · cases lines rest <;> rfl
  · rintro more rfl rfl
    exact unreturned rfl rfl
  · exact unfed

/-- Bytes without a line feed stay together at the beginning of a line. -/
theorem lines_append {line rest : List UInt8} (nonempty : line ≠ []) (unbroken : 10 ∉ line)
    (apart : line.getLast? = some 13 → rest.head? ≠ some 10) :
    lines (line ++ rest) = (line ++ (lines rest).headD []) :: (lines rest).tail := by
  induction line with
  | nil => exact absurd rfl nonempty
  | cons byte line ih =>
      obtain ⟨unfed, unbroken⟩ := not_or.mp (mt List.mem_cons.mpr unbroken)
      cases line with
      | nil =>
          rw [List.singleton_append, lines_cons (Ne.symm unfed)]
          · rfl
          · rintro rfl
            exact apart rfl
      | cons next line =>
          rw [List.cons_append, lines_cons (Ne.symm unfed), ih (List.cons_ne_nil _ _) unbroken]
          · rfl
          · rwa [List.getLast?_cons_cons] at apart
          · intro _ feeds
            cases feeds
            exact unbroken List.mem_cons_self

theorem lines_append_feed {line : List UInt8} (rest : List UInt8) (unbroken : 10 ∉ line)
    (bare : line.getLast? ≠ some 13) : lines (line ++ 10 :: rest) = line :: lines rest := by
  have ending : lines (10 :: rest) = [] :: lines rest := by rw [lines]
  by_cases empty : line = []
  · rw [empty, List.nil_append, ending]
  · rw [lines_append empty unbroken fun returned => absurd returned bare, ending]
    simp

theorem lines_append_returnFeed {line : List UInt8} (rest : List UInt8) (unbroken : 10 ∉ line) :
    lines (line ++ 13 :: 10 :: rest) = line :: lines rest := by
  have ending : lines (13 :: 10 :: rest) = [] :: lines rest := by rw [lines]
  by_cases empty : line = []
  · rw [empty, List.nil_append, ending]
  · rw [lines_append empty unbroken (by simp), ending]
    simp

theorem Lined.lines_eq {input : List UInt8} {cut : List (List UInt8)} (lined : Lined input cut) :
    lines input = cut := by
  induction lined with
  | done => rfl
  | last nonempty unbroken =>
      simpa [lines] using @lines_append _ [] nonempty unbroken (by simp)
  | feed unbroken bare more ih => rw [lines_append_feed _ unbroken bare, ih]
  | returnFeed unbroken more ih => rw [lines_append_returnFeed _ unbroken, ih]

theorem lined_lines (input : List UInt8) : Lined input (lines input) := by
  fun_induction lines input with
  | case1 => exact .done
  | case2 rest ih => exact .returnFeed List.not_mem_nil ih
  | case3 rest ih => exact .feed List.not_mem_nil (by simp) ih
  | case4 byte rest apart unfed none ih =>
      rw [none] at ih
      cases ih
      exact .last (List.cons_ne_nil _ _) (by simpa using Ne.symm unfed)
  | case5 byte rest apart unfed line more found ih =>
      rw [found] at ih
      have unbroken {line : List UInt8} (whole : 10 ∉ line) : 10 ∉ byte :: line :=
        mt List.mem_cons.mp (not_or.mpr ⟨Ne.symm unfed, whole⟩)
      cases ih with
      | last nonempty whole => exact .last (List.cons_ne_nil _ _) (unbroken whole)
      | @feed _ rest _ whole bare more =>
          refine .feed (unbroken whole) ?_ more
          cases line with
          | nil =>
              rintro returned
              cases returned
              exact apart rest rfl rfl
          | cons next line => rwa [List.getLast?_cons_cons]
      | returnFeed whole more => exact .returnFeed (unbroken whole) more

/-- There is one way to cut bytes into lines. -/
theorem lined_iff {input : List UInt8} {cut : List (List UInt8)} :
    Lined input cut ↔ lines input = cut :=
  ⟨Lined.lines_eq, fun same => same ▸ lined_lines input⟩

/-- What is read behind the end of a line begins a new line. -/
theorem Lined.append {input more : List UInt8} {cut cut' : List (List UInt8)}
    (lined : Lined input cut) (ended : input.getLast? = some 10) (behind : Lined more cut') :
    Lined (input ++ more) (cut ++ cut') := by
  have onward {rest : List UInt8} {tail : List (List UInt8)} (lined : Lined rest tail)
      (ended : (10 :: rest).getLast? = some 10)
      (ih : rest.getLast? = some 10 → Lined (rest ++ more) (tail ++ cut')) :
      Lined (rest ++ more) (tail ++ cut') := by
    cases rest with
    | nil =>
        rw [← lined.lines_eq]
        simpa [lines] using behind
    | cons byte rest => exact ih (by rwa [List.getLast?_cons_cons] at ended)
  induction lined with
  | done => cases ended
  | last nonempty unbroken => exact absurd (List.mem_of_getLast? ended) unbroken
  | feed unbroken bare rest ih =>
      rw [List.append_assoc, List.cons_append]
      exact .feed unbroken bare (onward rest (by simpa using ended) ih)
  | returnFeed unbroken rest ih =>
      rw [List.append_assoc, List.cons_append, List.cons_append]
      exact .returnFeed unbroken (onward rest (by simpa using ended) ih)

/-- The bytes of a text. -/
def encode (text : String) : List UInt8 := text.toUTF8.data.toList

theorem fromUTF8?_eq_some_iff {line : List UInt8} {text : String} :
    String.fromUTF8? ⟨line.toArray⟩ = some text ↔ line = encode text := by
  unfold String.fromUTF8?
  constructor
  · intro decoded
    split at decoded
    · cases decoded
      rfl
    · cases decoded
  · rintro rfl
    exact dif_pos text.isValidUTF8

/-- The texts that end a session: blanks alone, or a word for it in upper or lower case. -/
def Parting (text : String) : Prop :=
  ∃ core, Text.Trimmed text.toList core ∧
    (core = [] ∨ core.map Char.toLower = "exit".toList ∨ core.map Char.toLower = "quit".toList)

theorem endsSession_iff {text : String} :
    endsSession (Text.trim text.toList) = true ↔ Parting text := by
  simp [endsSession, Parting, Text.trimmed_iff, or_assoc]

/-- What is said last, with the exit code, where a session ends: at the end of the input, at a line that
ends it, or at one that is no text. -/
inductive Ends : Option (List UInt8) → Outcome → Prop where
  | input : Ends none ⟨"Exiting calculator. Goodbye!\n", 0⟩
  | parting {text : String} (parting : Parting text) :
      Ends (some (encode text)) ⟨"Exiting calculator. Goodbye!\n", 0⟩
  | noText {line : List UInt8} (noText : ∀ text, line ≠ encode text) : Ends (some line) ⟨"", 1⟩

/-- The texts of the lines up to the one at which a session ends, that line and those behind it, and
what is said there. -/
structure Division (input : List UInt8) (texts : List String) (rest : List (List UInt8))
    (closing : Outcome) : Prop where
  lined : Lined input (texts.map encode ++ rest)
  answered : ∀ text ∈ texts, ¬Parting text
  ends : Ends rest.head? closing

theorem exists_answered (cut : List (List UInt8)) :
    ∃ (texts : List String) (rest : List (List UInt8)) (closing : Outcome),
      cut = texts.map encode ++ rest ∧ (∀ text ∈ texts, ¬Parting text) ∧ Ends rest.head? closing := by
  induction cut with
  | nil => exact ⟨[], [], _, rfl, by simp, .input⟩
  | cons line cut ih =>
      by_cases decoded : ∃ text, line = encode text
      · obtain ⟨text, rfl⟩ := decoded
        by_cases parting : Parting text
        · exact ⟨[], encode text :: cut, _, rfl, by simp, .parting parting⟩
        · obtain ⟨texts, rest, closing, rfl, answered, ends⟩ := ih
          exact ⟨text :: texts, rest, closing, rfl, List.forall_mem_cons.mpr ⟨parting, answered⟩, ends⟩
      · exact ⟨[], line :: cut, _, rfl, by simp, .noText fun text same => decoded ⟨text, same⟩⟩

theorem exists_division (input : List UInt8) :
    ∃ texts rest closing, Division input texts rest closing := by
  obtain ⟨texts, rest, closing, cut, answered, ends⟩ := exists_answered (lines input)
  exact ⟨texts, rest, closing, lined_iff.mpr cut, answered, ends⟩

/-- What is read behind a line that ends the session is no part of it. -/
theorem Division.append {input : List UInt8} {texts : List String} {stop : List UInt8}
    {rest : List (List UInt8)} {closing : Outcome}
    (division : Division input texts (stop :: rest) closing) (ended : input.getLast? = some 10)
    (more : List UInt8) : Division (input ++ more) texts (stop :: rest ++ lines more) closing := by
  obtain ⟨lined, answered, ends⟩ := division
  refine ⟨?_, answered, ends⟩
  rw [← List.append_assoc]
  exact lined.append ended (lined_lines more)

end Session

section

variable (calculator : Calculator) (options : Options)

theorem answer_trim (expression : String) :
    answer calculator options (String.ofList (Text.trim expression.toList)) =
      answer calculator options expression := by
  have same : calculator.arrange (String.ofList (Text.trim expression.toList)) =
      calculator.arrange expression := by
    rw [Calculator.arrange, Calculator.arrange, String.toList_ofList, Text.trim_trim]
  rw [answer, answer, same]

/-- The line for the postfix form. -/
def formLine : Except CalculationError (List Token) → String
  | .ok tokens => if options.rpn then "RPN: " ++ Token.listText tokens ++ "\n" else ""
  | .error _ => ""

/-- The line for a value or for the reason why there is none, and the exit code. -/
def verdict : Except CalculationError Float → Outcome
  | .ok value => ⟨"Result: " ++ Numeral.fixedText options.precision value ++ "\n", 0⟩
  | .error reason => ⟨"Error: Invalid expression. " ++ reason.message ++ "\n", 1⟩

@[simp] theorem verdict_ok (value : Float) : verdict options (.ok value) =
    ⟨"Result: " ++ Numeral.fixedText options.precision value ++ "\n", 0⟩ := rfl

@[simp] theorem verdict_error (reason : CalculationError) : verdict options (.error reason) =
    ⟨"Error: Invalid expression. " ++ reason.message ++ "\n", 1⟩ := rfl

/-- An expression is answered by what its evaluation gives, behind its postfix form if there is one. -/
theorem answer_eq (expression : String) : answer calculator options expression =
    ⟨formLine options (calculator.arrange expression) ++
        (verdict options (calculator.evaluate expression)).output,
      (verdict options (calculator.evaluate expression)).exitCode⟩ := by
  rw [answer, Calculator.evaluate]
  cases calculator.arrange expression with
  | error reason =>
      rw [formLine, InfixCalculator.Outcome.error_bind, String.empty_append, verdict_error]
  | ok tokens =>
      rw [formLine, InfixCalculator.Outcome.ok_bind]
      dsimp only
      cases calculator.value tokens with
      | error reason => simp only [verdict_error, String.append_assoc]
      | ok value => simp only [verdict_ok, String.append_assoc]

theorem not_rpn_verdict (outcome : Except CalculationError Float) :
    ¬"RPN: ".toList <+: (verdict options outcome).output.toList := by
  cases outcome with
  | ok value => simp [String.append_assoc, String.toList_append]
  | error reason => simp [String.append_assoc, String.toList_append]

/-- The postfix form is printed just if it is asked for and there is one. -/
theorem rpn_prefix_answer_iff (expression : String) :
    "RPN: ".toList <+: (answer calculator options expression).output.toList ↔
      options.rpn = true ∧ ∃ tokens, calculator.arrange expression = .ok tokens := by
  rw [answer_eq]
  cases calculator.arrange expression with
  | error reason =>
      rw [formLine, String.empty_append]
      simpa using not_rpn_verdict options _
  | ok tokens =>
      cases asked : options.rpn with
      | false =>
          rw [formLine, asked, if_neg (by simp), String.empty_append]
          simpa using not_rpn_verdict options _
      | true =>
          rw [formLine, asked, if_pos rfl]
          simp [String.append_assoc, String.toList_append]

namespace Session

/-- The banner of the standard calculator. -/
def opening : String :=
  "--- shuntcalc (Infix Mode) ---\n" ++
  "Supported Operations:\n" ++
  "  Binary: ^ (power), r (root), * (multiply), / (divide), + (add), - (subtract)\n" ++
  "          a r b = b-th root of a\n" ++
  "  Unary (Prefix): S (sin), s (sinh), C (cos), c (cosh), T (tan), t (tanh), l (ln), L (log10)" ++
    " (e.g., S30)\n" ++
  "  Unary (Postfix): ! (factorial) (e.g., 6!)\n" ++
  "  Constant: p (PI)\n" ++
  "\n" ++
  "NOTE: Use explicit multiplication (e.g., 2*(3) is correct).\n" ++
  "Type 'exit' or 'quit' to end.\n" ++
  "\n"

theorem banner_standard : banner Calculator.standard.table = opening := by decide +kernel

/-- What is printed on a line that does not end the session. -/
def exchange (text : String) : String :=
  "Expression: " ++ (answer calculator options text).output ++ "\n"

theorem reply_answered {text : String} (going : ¬Parting text) :
    reply calculator options (encode text) = ⟨(answer calculator options text).output ++ "\n", none⟩ := by
  have decoded := (@fromUTF8?_eq_some_iff (encode text) text).mpr rfl
  rw [← endsSession_iff, Bool.not_eq_true] at going
  rw [reply, decoded]
  dsimp only
  rw [going, answer_trim]
  rfl

/-- The closing of a conversation that begins where the session ends. -/
theorem converse_ends {rest : List (List UInt8)} {closing : Outcome} (ends : Ends rest.head? closing) :
    converse calculator options rest = ⟨"Expression: " ++ closing.output, closing.exitCode⟩ := by
  cases rest with
  | nil =>
      cases ends
      rfl
  | cons line rest =>
      rw [converse]
      rw [List.head?_cons] at ends
      cases ends with
      | @parting text parting =>
          have decoded := (@fromUTF8?_eq_some_iff (encode text) text).mpr rfl
          rw [reply, decoded]
          dsimp only
          rw [if_pos (endsSession_iff.mpr parting)]
          rfl
      | noText noText =>
          have undecoded : String.fromUTF8? ⟨line.toArray⟩ = none := by
            rw [Option.eq_none_iff_forall_ne_some]
            intro text decoded
            exact noText text (fromUTF8?_eq_some_iff.mp decoded)
          rw [reply, undecoded]
          rfl

theorem converse_answered {texts : List String} {rest : List (List UInt8)} {closing : Outcome}
    (answered : ∀ text ∈ texts, ¬Parting text) (ends : Ends rest.head? closing) :
    converse calculator options (texts.map encode ++ rest) =
      ⟨String.join (texts.map (exchange calculator options)) ++ ("Expression: " ++ closing.output),
        closing.exitCode⟩ := by
  induction texts with
  | nil =>
      rw [List.map_nil, List.nil_append, converse_ends calculator options ends, List.map_nil,
        String.join_nil, String.empty_append]
  | cons text texts ih =>
      obtain ⟨going, answered⟩ := List.forall_mem_cons.mp answered
      rw [List.map_cons, List.cons_append, converse, reply_answered calculator options going]
      dsimp only
      rw [ih answered, List.map_cons, String.join_cons, exchange, prompt]
      simp only [String.append_assoc]

/-- A session prints its answers to the lines before the one at which it ends. -/
theorem run_eq {input : List UInt8} {texts : List String} {rest : List (List UInt8)}
    {closing : Outcome} (division : Division input texts rest closing) :
    run calculator options input =
      ⟨banner calculator.table ++ String.join (texts.map (exchange calculator options)) ++
        "Expression: " ++ closing.output, closing.exitCode⟩ := by
  rw [run, lined_iff.mp division.lined,
    converse_answered calculator options division.answered division.ends]
  simp only [String.append_assoc]

/-- Every input has lines up to one at which the session ends. The session prints its banner, a prompt
and the answer for each of them, a prompt and the closing, which ends it whatever is answered and
whatever stands behind. The program holds such a session with any options that can be given, and an answer
is that of the program to the expression by itself, which is the outcome of its evaluation behind its
postfix form if that is asked for and there is one. -/
theorem run_transcript :
    (∀ input, ∃ texts rest closing, Division input texts rest closing) ∧
      (∀ input texts rest closing, Division input texts rest closing →
        run calculator options input =
          ⟨banner calculator.table ++ String.join (texts.map (exchange calculator options)) ++
            "Expression: " ++ closing.output, closing.exitCode⟩) ∧
      (∀ input texts stop rest closing, Division input texts (stop :: rest) closing →
        input.getLast? = some 10 → ∀ more,
          run calculator options (input ++ more) = run calculator options input) ∧
      banner Calculator.standard.table = opening ∧
      (options.precision ≤ 65535 → Request.ofArguments options.arguments = .session options) ∧
      (∀ help arguments, Request.ofArguments arguments = .session options → ∀ input text,
        CommandLine.run help arguments input = run .standard options input ∧
          CommandLine.run help (Request.withExpression arguments text) input =
            answer .standard options text) ∧
      ∀ text,
        answer calculator options text =
          ⟨formLine options (calculator.arrange text) ++
              (verdict options (calculator.evaluate text)).output,
            (verdict options (calculator.evaluate text)).exitCode⟩ ∧
          ("RPN: ".toList <+: (answer calculator options text).output.toList ↔
            options.rpn = true ∧ ∃ tokens, calculator.arrange text = .ok tokens) := by
  refine ⟨exists_division, fun input texts rest closing => run_eq calculator options, ?_,
    banner_standard, Request.ofArguments_options, ?_,
    fun text => ⟨answer_eq calculator options text, rpn_prefix_answer_iff calculator options text⟩⟩
  · intro input texts stop rest closing division ended more
    rw [run_eq calculator options division, run_eq calculator options (division.append ended more)]
  · intro help arguments asked input text
    rw [CommandLine.run, asked, CommandLine.run, Request.ofArguments_withExpression asked]
    exact ⟨rfl, rfl⟩

end Session

end

end CommandLine
end InfixCalculator
