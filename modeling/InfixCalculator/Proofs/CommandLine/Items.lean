import InfixCalculator.CommandLine.Arguments
import InfixCalculator.Proofs.Outcome

namespace InfixCalculator.CommandLine

/-! What arguments spell.

`Spelled` has a rule for each form of an argument. Whether one with a minus in front can be an expression
depends on whether there has been an expression, and the value of an option may be the next argument. All
arguments spell something (`exists_spelled`), and it is what they are read as (`Request.conclude_spelled`). -/

open Outcome

/-- What an argument or a letter of one spells. -/
inductive Item where
  | expression (text : String)
  | precision (text : List Char)
  | rpn
  | verbose
  | help
  | version
  /-- No option, or an option with a value that it does not take or without the one that it needs. -/
  | refused

/-- The letter and the word of an option without a value. -/
inductive Names : Char → List Char → Item → Prop where
  | rpn : Names 'r' "rpn".toList .rpn
  | verbose : Names 'v' "verbose".toList .verbose
  | help : Names 'h' "help".toList .help
  | version : Names 'V' "version".toList .version

/-- The letters behind one minus, and whether a value for the last of them is still to come. -/
inductive Cluster : List Char → List Item → Bool → Prop where
  | done : Cluster [] [] false
  | flag {letter : Char} {word letters : List Char} {item : Item} {items : List Item} {waits : Bool}
      (names : Names letter word item) (more : Cluster letters items waits) :
      Cluster (letter :: letters) (item :: items) waits
  | assigned {value : List Char} : Cluster ('p' :: '=' :: value) [.precision value] false
  | attached {value : List Char} (nonempty : value ≠ []) (bare : value.head? ≠ some '=') :
      Cluster ('p' :: value) [.precision value] false
  | waits : Cluster ['p'] [] true
  | unknown {letter : Char} {letters : List Char} (unknown : letter ∉ ['p', 'r', 'v', 'h', 'V']) :
      Cluster (letter :: letters) [.refused] false

/-- The word of an option behind two minuses, and whether its value is still to come. -/
inductive Word : List Char → List Item → Bool → Prop where
  | flag {letter : Char} {word : List Char} {item : Item} (names : Names letter word item) :
      Word word [item] false
  | assignedFlag {letter : Char} {word value : List Char} {item : Item}
      (names : Names letter word item) : Word (word ++ '=' :: value) [.refused] false
  | assigned {value : List Char} : Word ("precision".toList ++ '=' :: value) [.precision value] false
  | waits : Word "precision".toList [] true

/-- An argument of options. As long as there is no expression, all of its letters have to be known. -/
inductive IsOption (taken : Bool) : List Char → List Item → Bool → Prop where
  | letters {first : Char} {rest : List Char} {items : List Item} {waits : Bool} (single : first ≠ '-')
      (known : taken = false → ∀ letter ∈ first :: rest, letter ∈ ['p', 'r', 'v', 'h', 'V'])
      (cluster : Cluster (first :: rest) items waits) : IsOption taken ('-' :: first :: rest) items waits
  | word {word : List Char} {items : List Item} {waits : Bool} (named : Word word items waits) :
      IsOption taken ('-' :: '-' :: word) items waits

/-- An argument that is an expression in front of two minuses. -/
inductive IsExpression (taken : Bool) : List Char → Prop where
  | unsigned {text : List Char} (start : text.head? ≠ some '-') : IsExpression taken text
  | minus : IsExpression taken ['-']
  | letters {first : Char} {rest : List Char} (single : first ≠ '-') (free : taken = false)
      (other : ∃ letter ∈ first :: rest, letter ∉ ['p', 'r', 'v', 'h', 'V']) :
      IsExpression taken ('-' :: first :: rest)
  | word {word : List Char} (nonempty : word ≠ [])
      (unknown : String.ofList (word.takeWhile (· != '=')) ∉
        ["precision", "rpn", "verbose", "help", "version"]) : IsExpression taken ('-' :: '-' :: word)

/-- What arguments spell, by whether there has been an expression in front of them. -/
inductive Spelled : Bool → List String → List Item → Prop where
  | done {taken : Bool} : Spelled taken [] []
  | dashes {taken : Bool} {rest : List String} :
      Spelled taken ("--" :: rest) (rest.map .expression)
  | expression {taken : Bool} {argument : String} {rest : List String} {items : List Item}
      (isExpression : IsExpression taken argument.toList) (more : Spelled true rest items) :
      Spelled taken (argument :: rest) (.expression argument :: items)
  | options {taken : Bool} {argument : String} {rest : List String} {parts items : List Item}
      (isOption : IsOption taken argument.toList parts false) (more : Spelled taken rest items) :
      Spelled taken (argument :: rest) (parts ++ items)
  | valued {taken : Bool} {argument value : String} {rest : List String} {parts items : List Item}
      (isOption : IsOption taken argument.toList parts true) (more : Spelled taken rest items) :
      Spelled taken (argument :: value :: rest) (parts ++ .precision value.toList :: items)
  | unvalued {taken : Bool} {argument : String} {parts : List Item}
      (isOption : IsOption taken argument.toList parts true) :
      Spelled taken [argument] (parts ++ [.refused])

theorem Word.ne_nil {word : List Char} {items : List Item} {waits : Bool}
    (named : Word word items waits) : word ≠ [] := by
  cases named with
  | flag names => cases names <;> decide
  | assignedFlag | assigned => simp
  | waits => decide

theorem Flag.ofLetter?_eq_none_iff {letter : Char} :
    Flag.ofLetter? letter = none ↔ letter ∉ ['p', 'r', 'v', 'h', 'V'] := by
  unfold Flag.ofLetter?
  split <;> simp_all

theorem Flag.ofWord?_eq_none {word : List Char}
    (unknown : String.ofList word ∉ ["precision", "rpn", "verbose", "help", "version"]) :
    Flag.ofWord? word = none := by
  have other (name : String) (different : String.ofList word ≠ name) : word ≠ name.toList :=
    fun same => different (by rw [same, String.ofList_toList])
  simp only [List.mem_cons, List.not_mem_nil, or_false, not_or] at unknown
  obtain ⟨precision, rpn, verbose, help, version⟩ := unknown
  rw [Flag.ofWord?, if_neg (other _ precision), if_neg (other _ rpn), if_neg (other _ verbose),
    if_neg (other _ help), if_neg (other _ version)]

namespace Scan

variable {state next : Scan} {taken waits : Bool} {items parts : List Item}

def takeItem (state : Scan) : Item → Except Stop Scan
  | .expression text => state.takeExpression text
  | .precision text => state.takePrecision text
  | .rpn => state.takeFlag .rpn
  | .verbose => state.takeFlag .verbose
  | .help => state.takeFlag .help
  | .version => state.takeFlag .version
  | .refused => .error .misuse

/-- Nothing of the scan so far keeps an argument from being an option. -/
structure Ready (state : Scan) : Prop where
  going : state.optionsEnded = false
  served : state.awaitsPrecision = false

/-- The scan where it waits for the value of a precision, or does not. -/
def awaiting (waits : Bool) (state : Scan) : Scan := { state with awaitsPrecision := waits }

theorem Ready.awaiting_eq (ready : state.Ready) : state.awaiting false = state := by
  rw [awaiting, ← ready.served]

theorem Ready.takeItem {item : Item} (ready : state.Ready) (stepped : state.takeItem item = .ok next) :
    next.Ready := by
  cases item with
  | expression =>
      simp only [Scan.takeItem, takeExpression] at stepped
      split at stepped <;> cases stepped
      exact ⟨ready.going, ready.served⟩
  | precision =>
      simp only [Scan.takeItem, takePrecision] at stepped
      split at stepped <;> cases stepped
      exact ⟨ready.going, rfl⟩
  | rpn =>
      simp only [Scan.takeItem, takeFlag] at stepped
      split at stepped <;> cases stepped
      exact ⟨ready.going, ready.served⟩
  | verbose =>
      cases stepped
      exact ready
  | help | version | refused => cases stepped

theorem Ready.takeItems (ready : state.Ready) (run : items.foldlM Scan.takeItem state = .ok next) :
    next.Ready := by
  induction items generalizing state with
  | nil =>
      cases run
      exact ready
  | cons item rest ih =>
      obtain ⟨middle, stepped, run⟩ := foldlM_cons_eq_ok.mp run
      exact ih (ready.takeItem stepped) run

theorem foldlM_singleton (item : Item) : [item].foldlM takeItem state = state.takeItem item :=
  bind_pure _

theorem Ready.map_takeItem (ready : state.Ready) (item : Item) :
    (state.takeItem item).map (awaiting false) = state.takeItem item := by
  cases taken : state.takeItem item with
  | error stop => rfl
  | ok next => exact congrArg Except.ok (ready.takeItem taken).awaiting_eq

end Scan

/-- An option without a value is that of its letter and that of its word. -/
theorem Names.exists_flag {letter : Char} {word : List Char} {item : Item}
    (names : Names letter word item) :
    ∃ flag, flag ≠ .precision ∧ Flag.ofLetter? letter = some flag ∧ Flag.ofWord? word = some flag ∧
      (∀ c ∈ word, (c != '=') = true) ∧ ∀ state : Scan, state.takeItem item = state.takeFlag flag := by
  cases names with
  | rpn => exact ⟨.rpn, by decide, rfl, by decide, List.all_eq_true.mp rfl, fun _ => rfl⟩
  | verbose => exact ⟨.verbose, by decide, rfl, by decide, List.all_eq_true.mp rfl, fun _ => rfl⟩
  | help => exact ⟨.help, by decide, rfl, by decide, List.all_eq_true.mp rfl, fun _ => rfl⟩
  | version => exact ⟨.version, by decide, rfl, by decide, List.all_eq_true.mp rfl, fun _ => rfl⟩

namespace Scan

variable {state next : Scan} {taken waits : Bool} {items parts : List Item}

theorem takeLetters_cons {letter : Char} {letters : List Char} {flag : Flag}
    (known : Flag.ofLetter? letter = some flag) (valueless : flag ≠ .precision) :
    state.takeLetters (letter :: letters) =
      state.takeFlag flag >>= fun next => next.takeLetters letters := by
  rw [takeLetters.eq_def]
  dsimp only
  rw [known]
  cases flag with
  | precision => exact absurd rfl valueless
  | rpn =>
      dsimp only
      cases state.takeFlag .rpn <;> rfl
  | verbose | help | version => rfl

theorem takeLetters_eq {letters : List Char} (cluster : Cluster letters items waits)
    (ready : state.Ready) :
    state.takeLetters letters = (items.foldlM takeItem state).map (awaiting waits) := by
  induction cluster generalizing state with
  | done => exact congrArg Except.ok ready.awaiting_eq.symm
  | flag names more ih =>
      obtain ⟨flag, valueless, known, _, _, same⟩ := names.exists_flag
      rw [takeLetters_cons known valueless, List.foldlM_cons]
      cases taken : state.takeFlag flag with
      | error stop =>
          rw [same, taken]
          rfl
      | ok next => rw [same, taken, ok_bind, ok_bind, ih (ready.takeItem ((same state).trans taken))]
  | assigned =>
      rw [foldlM_singleton, ready.map_takeItem]
      rfl
  | @attached value nonempty bare =>
      rw [foldlM_singleton, ready.map_takeItem, takeItem]
      cases value with
      | nil => exact absurd rfl nonempty
      | cons c rest =>
          rw [takeLetters.eq_def]
          dsimp only
          split <;> simp_all [Flag.ofLetter?]
  | waits => rfl
  | unknown unknown =>
      rw [takeLetters.eq_def]
      dsimp only
      rw [Flag.ofLetter?_eq_none_iff.mpr unknown]
      rfl

theorem takeWord_eq {argument : String} {word : List Char} (named : Word word items waits)
    (ready : state.Ready) :
    state.takeWord argument word = (items.foldlM takeItem state).map (awaiting waits) := by
  cases named with
  | flag names =>
      obtain ⟨flag, valueless, _, known, plain, same⟩ := names.exists_flag
      have whole : word.takeWhile (· != '=') = word := by
        simpa using @List.takeWhile_append_of_pos _ _ _ [] plain
      rw [foldlM_singleton, ready.map_takeItem, same]
      simp only [takeWord, whole, known, List.drop_length]
  | @assignedFlag letter word value item names =>
      obtain ⟨flag, valueless, _, known, plain, _⟩ := names.exists_flag
      have name : (word ++ '=' :: value).takeWhile (· != '=') = word := by
        rw [List.takeWhile_append_of_pos plain, List.takeWhile_cons_of_neg (by decide), List.append_nil]
      have behind : (word ++ '=' :: value).drop word.length = '=' :: value := List.drop_left
      simp only [takeWord, name, known, behind]
      cases flag with
      | precision => exact absurd rfl valueless
      | rpn | verbose | help | version => rfl
  | assigned =>
      rw [foldlM_singleton, ready.map_takeItem]
      rfl
  | waits => rfl

/-- An argument of options is read as what it spells. -/
theorem step_isOption {argument : String} (isOption : IsOption taken argument.toList items waits)
    (ready : state.Ready) (same : state.expression.isSome = taken) :
    state.step argument = (items.foldlM takeItem state).map (awaiting waits) := by
  rw [step, ready.going, ready.served, if_neg Bool.false_ne_true, if_neg Bool.false_ne_true]
  generalize argument.toList = text at isOption
  cases isOption with
  | @letters first rest _ _ single known cluster =>
      rw [← takeLetters_eq cluster ready]
      split
      · simp_all
      · simp_all
      · next spelled =>
          cases spelled
          refine if_neg ?_
          rintro ⟨free, unknown⟩
          obtain ⟨letter, member, none⟩ := List.any_eq_true.mp unknown
          refine Flag.ofLetter?_eq_none_iff.mp (beq_iff_eq.mp none) (known ?_ letter member)
          rw [← same, free]
          rfl
      · simp_all
  | @word word _ _ named =>
      rw [← @takeWord_eq _ _ _ argument _ named ready]
      cases word with
      | nil => exact absurd rfl named.ne_nil
      | cons c rest => rfl

/-- An expression in front of two minuses is taken up as an expression. -/
theorem step_isExpression {argument : String} (isExpression : IsExpression taken argument.toList)
    (ready : state.Ready) (same : state.expression.isSome = taken) :
    state.step argument = state.takeExpression argument := by
  rw [step, ready.going, ready.served, if_neg Bool.false_ne_true, if_neg Bool.false_ne_true]
  generalize argument.toList = text at isExpression
  cases isExpression with
  | unsigned start =>
      split
      · simp at start
      · simp at start
      · simp at start
      · rfl
  | minus => rfl
  | @letters first rest single free other =>
      obtain ⟨letter, member, unknown⟩ := other
      have found : (first :: rest).any (Flag.ofLetter? · == none) = true :=
        List.any_eq_true.mpr ⟨letter, member, beq_iff_eq.mpr (Flag.ofLetter?_eq_none_iff.mpr unknown)⟩
      have absent : state.expression = none := by simpa [free] using same
      split
      · simp_all
      · simp_all
      · next spelled =>
          cases spelled
          exact if_pos ⟨absent, found⟩
      · rfl
  | @word word nonempty unknown =>
      cases word with
      | nil => exact absurd rfl nonempty
      | cons c rest =>
          change state.takeWord argument (c :: rest) = _
          simp only [takeWord, Flag.ofWord?_eq_none unknown]

theorem expression_takeItem {item : Item} (stepped : state.takeItem item = .ok next)
    (other : ∀ text, item ≠ .expression text) : next.expression = state.expression := by
  cases item with
  | expression text => exact absurd rfl (other text)
  | precision | rpn =>
      simp only [takeItem, takePrecision, takeFlag] at stepped
      split at stepped <;> cases stepped
      rfl
  | verbose =>
      cases stepped
      rfl
  | help | version | refused => cases stepped

theorem expression_takeItems (run : items.foldlM takeItem state = .ok next)
    (others : ∀ text, .expression text ∉ items) : next.expression = state.expression := by
  induction items generalizing state with
  | nil =>
      cases run
      rfl
  | cons item rest ih =>
      obtain ⟨middle, stepped, run⟩ := foldlM_cons_eq_ok.mp run
      have other : ∀ text, item ≠ .expression text := by
        rintro text rfl
        exact others text List.mem_cons_self
      rw [ih run fun text member => others text (List.mem_cons_of_mem _ member),
        expression_takeItem stepped other]

end Scan

theorem Cluster.not_expression {letters : List Char} {items : List Item} {waits : Bool}
    (cluster : Cluster letters items waits) (text : String) : .expression text ∉ items := by
  induction cluster with
  | flag names more ih =>
      intro member
      rcases List.mem_cons.mp member with same | member
      · cases same
        cases names
      · exact ih member
  | done | assigned | attached | waits | unknown => simp

theorem IsOption.not_expression {taken waits : Bool} {argument : List Char} {items : List Item}
    (isOption : IsOption taken argument items waits) (text : String) : .expression text ∉ items := by
  cases isOption with
  | letters _ _ cluster => exact cluster.not_expression text
  | word named =>
      cases named with
      | flag names => cases names <;> simp
      | assignedFlag | assigned | waits => simp

def Stop.request : Stop → Request
  | .help => .help
  | .version => .version
  | .misuse => .misuse

namespace Request

/-- The request that a scan ends with. -/
def conclude : Except Stop Scan → Request
  | .ok state => state.finish
  | .error stop => stop.request

theorem ofArguments_eq (arguments : List String) :
    ofArguments arguments = conclude (arguments.foldlM Scan.step {}) := by
  unfold ofArguments
  split <;> simp_all [conclude, Stop.request]

theorem conclude_ended (rest : List String) (state : Scan) :
    conclude (rest.foldlM Scan.step { state with optionsEnded := true }) =
      conclude ((rest.map Item.expression).foldlM Scan.takeItem state) := by
  induction rest generalizing state with
  | nil => rfl
  | cons argument rest ih =>
      rw [List.map_cons, List.foldlM_cons, List.foldlM_cons, Scan.step, if_pos rfl, Scan.takeItem,
        Scan.takeExpression, Scan.takeExpression]
      cases state.expression with
      | some => rfl
      | none => exact ih { state with expression := some argument }

/-- Arguments are read as what they spell. -/
theorem conclude_spelled {taken : Bool} {arguments : List String} {items : List Item}
    (spelled : Spelled taken arguments items) {state : Scan} (ready : state.Ready)
    (same : state.expression.isSome = taken) :
    conclude (arguments.foldlM Scan.step state) = conclude (items.foldlM Scan.takeItem state) := by
  induction spelled generalizing state with
  | done => rfl
  | @dashes taken rest =>
      have ended : state.step "--" = .ok { state with optionsEnded := true } := by
        rw [Scan.step, ready.going, ready.served]
        rfl
      rw [List.foldlM_cons, ended, ok_bind]
      exact conclude_ended rest state
  | @expression taken argument rest items isExpression more ih =>
      rw [List.foldlM_cons, List.foldlM_cons, Scan.step_isExpression isExpression ready same,
        Scan.takeItem, Scan.takeExpression]
      cases state.expression with
      | some => rfl
      | none => exact ih ⟨ready.going, ready.served⟩ rfl
  | @options taken argument rest parts items isOption more ih =>
      rw [List.foldlM_cons, List.foldlM_append, Scan.step_isOption isOption ready same]
      cases run : parts.foldlM Scan.takeItem state with
      | error stop => rfl
      | ok next =>
          have ready' := ready.takeItems run
          rw [map_ok, ok_bind, ok_bind, ready'.awaiting_eq]
          refine ih ready' ?_
          rw [Scan.expression_takeItems run isOption.not_expression, same]
  | @valued taken argument value rest parts items isOption more ih =>
      rw [List.foldlM_cons, List.foldlM_append, Scan.step_isOption isOption ready same]
      cases run : parts.foldlM Scan.takeItem state with
      | error stop => rfl
      | ok next =>
          have ready' := ready.takeItems run
          have served : (next.awaiting true).step value = next.takeItem (.precision value.toList) := by
            rw [Scan.step, if_neg (by simp [Scan.awaiting, ready'.going])]
            rfl
          rw [map_ok, ok_bind, ok_bind, List.foldlM_cons, List.foldlM_cons, served]
          cases stepped : next.takeItem (.precision value.toList) with
          | error stop => rfl
          | ok last =>
              refine ih (ready'.takeItem stepped) ?_
              rw [Scan.expression_takeItem stepped (by simp),
                Scan.expression_takeItems run isOption.not_expression, same]
  | @unvalued taken argument parts isOption =>
      rw [List.foldlM_cons, List.foldlM_append, Scan.step_isOption isOption ready same]
      cases parts.foldlM Scan.takeItem state <;> rfl

end Request

theorem Cluster.exists_items (letters : List Char) : ∃ items waits, Cluster letters items waits := by
  induction letters with
  | nil => exact ⟨[], false, .done⟩
  | cons letter rest ih =>
      obtain ⟨items, waits, cluster⟩ := ih
      by_cases known : letter ∈ ['p', 'r', 'v', 'h', 'V']
      · simp only [List.mem_cons, List.not_mem_nil, or_false] at known
        rcases known with rfl | rfl | rfl | rfl | rfl
        · by_cases assigned : rest.head? = some '='
          · obtain ⟨value, rfl⟩ := List.head?_eq_some_iff.mp assigned
            exact ⟨_, _, .assigned⟩
          · by_cases last : rest = []
            · subst last
              exact ⟨_, _, .waits⟩
            · exact ⟨_, _, .attached last assigned⟩
        · exact ⟨_, _, .flag .rpn cluster⟩
        · exact ⟨_, _, .flag .verbose cluster⟩
        · exact ⟨_, _, .flag .help cluster⟩
        · exact ⟨_, _, .flag .version cluster⟩
      · exact ⟨_, _, .unknown known⟩

theorem Word.exists_items {word : List Char}
    (known : String.ofList (word.takeWhile (· != '=')) ∈
      ["precision", "rpn", "verbose", "help", "version"]) : ∃ items waits, Word word items waits := by
  have whole := List.takeWhile_append_dropWhile (p := (· != '=')) (l := word)
  have spelled {name : String} (same : String.ofList (word.takeWhile (· != '=')) = name) :
      word = name.toList ∨ ∃ value, word = name.toList ++ '=' :: value := by
    rw [← same, String.toList_ofList]
    cases behind : word.dropWhile (· != '=') with
    | nil => 
        rw [behind, List.append_nil] at whole
        exact .inl whole.symm
    | cons c value =>
        have stop := List.head?_dropWhile_not (· != '=') word
        rw [behind] at whole stop
        obtain rfl : c = '=' := by simpa using stop
        exact .inr ⟨value, whole.symm⟩
  simp only [List.mem_cons, List.not_mem_nil, or_false] at known
  rcases known with same | same | same | same | same
  · rcases spelled same with rfl | ⟨value, rfl⟩
    · exact ⟨_, _, .waits⟩
    · exact ⟨_, _, .assigned⟩
  · rcases spelled same with rfl | ⟨value, rfl⟩
    · exact ⟨_, _, .flag .rpn⟩
    · exact ⟨_, _, .assignedFlag .rpn⟩
  · rcases spelled same with rfl | ⟨value, rfl⟩
    · exact ⟨_, _, .flag .verbose⟩
    · exact ⟨_, _, .assignedFlag .verbose⟩
  · rcases spelled same with rfl | ⟨value, rfl⟩
    · exact ⟨_, _, .flag .help⟩
    · exact ⟨_, _, .assignedFlag .help⟩
  · rcases spelled same with rfl | ⟨value, rfl⟩
    · exact ⟨_, _, .flag .version⟩
    · exact ⟨_, _, .assignedFlag .version⟩

/-- An argument is two minuses, or an expression, or options. -/
theorem exists_form (taken : Bool) (text : List Char) :
    text = ['-', '-'] ∨ IsExpression taken text ∨ ∃ items waits, IsOption taken text items waits := by
  cases text with
  | nil => exact .inr (.inl (.unsigned (by simp)))
  | cons start rest =>
      by_cases minus : start = '-'
      · subst minus
        cases rest with
        | nil => exact .inr (.inl .minus)
        | cons first rest =>
            by_cases single : first = '-'
            · subst single
              by_cases empty : rest = []
              · exact .inl (by rw [empty])
              · by_cases known : String.ofList (rest.takeWhile (· != '=')) ∈
                    ["precision", "rpn", "verbose", "help", "version"]
                · obtain ⟨items, waits, named⟩ := Word.exists_items known
                  exact .inr (.inr ⟨items, waits, .word named⟩)
                · exact .inr (.inl (.word empty known))
            · by_cases free : taken = false ∧ ∃ letter ∈ first :: rest, letter ∉ ['p', 'r', 'v', 'h', 'V']
              · exact .inr (.inl (.letters single free.1 free.2))
              · obtain ⟨items, waits, cluster⟩ := Cluster.exists_items (first :: rest)
                refine .inr (.inr ⟨items, waits, .letters single (fun untaken letter member => ?_) cluster⟩)
                exact Classical.byContradiction fun unknown => free ⟨untaken, letter, member, unknown⟩
      · exact .inr (.inl (.unsigned (by simpa using minus)))

theorem exists_spelled (taken : Bool) (arguments : List String) :
    ∃ items, Spelled taken arguments items := by
  -- A value is taken together with its option, so the rest may be shorter by two.
  induction length : arguments.length using Nat.strongRecOn generalizing taken arguments with
  | ind _ ih =>
      subst length
      cases arguments with
      | nil => exact ⟨[], .done⟩
      | cons argument rest =>
          have behind (taken : Bool) := ih rest.length (Nat.lt_succ_self _) taken rest rfl
          rcases exists_form taken argument.toList with dashes | isExpression | ⟨parts, waits, isOption⟩
          · obtain rfl : argument = "--" := String.toList_inj.mp dashes
            exact ⟨_, .dashes⟩
          · obtain ⟨items, more⟩ := behind true
            exact ⟨_, .expression isExpression more⟩
          · cases waits with
            | false =>
                obtain ⟨items, more⟩ := behind taken
                exact ⟨_, .options isOption more⟩
            | true =>
                cases rest with
                | nil => exact ⟨_, .unvalued isOption⟩
                | cons value rest =>
                    obtain ⟨items, more⟩ := ih rest.length (by rw [List.length_cons, List.length_cons]; omega) taken rest rfl
                    exact ⟨_, .valued isOption more⟩

end InfixCalculator.CommandLine
