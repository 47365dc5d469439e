import InfixCalculator.Proofs.CommandLine.Items
import InfixCalculator.Proofs.Outcome.First

namespace InfixCalculator.CommandLine

/-! The rules by which arguments are read.

`Asks` says what the items that arguments spell ask for: the first of them that cannot stand behind those in
front of it decides, and if there is none, all of them do. By these rules each list of arguments has one
request, and it is the one that the program serves (`Request.ofArguments_eq_iff`). Whatever else is said of
arguments follows from the rules alone, so a scan of another kind that keeps to them would serve as well. -/

open Outcome

/-- The text of a number of places: digits, perhaps behind a plus, for a number below `2 ^ 64`. -/
structure SpellsPlaces (text : List Char) (places : Nat) : Prop where
  digits : ∃ digits, (text = digits ∨ text = '+' :: digits) ∧ digits ≠ [] ∧
    (∀ c ∈ digits, Decimal.isDigit c = true) ∧ Nat.ofDigitChars 10 digits 0 = places
  bound : places ≤ 0xffffffffffffffff

/-- Why an item cannot stand behind those in front of it. -/
inductive Stops (front : List Item) : Item → Stop → Prop where
  | help : Stops front .help .help
  | version : Stops front .version .version
  | refused : Stops front .refused .misuse
  | unreadable {text : List Char} (unreadable : ∀ places, ¬SpellsPlaces text places) :
      Stops front (.precision text) .misuse
  | precision {text other : List Char} (again : .precision other ∈ front) :
      Stops front (.precision text) .misuse
  | rpn (again : .rpn ∈ front) : Stops front .rpn .misuse
  | expression {text other : String} (again : .expression other ∈ front) :
      Stops front (.expression text) .misuse

/-- No item has to stop. -/
def Unstopped (items : List Item) : Prop := ∀ index stop, ¬BrokenAt Stops items index stop

/-- The options that items set, where the number of places is ten if none is given. -/
structure Sets (items : List Item) (options : Options) : Prop where
  precision : (∃ text, .precision text ∈ items ∧ SpellsPlaces text options.precision) ∨
    (∀ text, .precision text ∉ items) ∧ options.precision = 10
  rpn : options.rpn = true ↔ .rpn ∈ items

/-- The request that items make up. -/
inductive Asks (items : List Item) : Request → Prop where
  | stop {stop : Stop} (first : First (BrokenAt Stops items) stop) : Asks items stop.request
  | calculate {expression : String} {options : Options} (unstopped : Unstopped items)
      (given : .expression expression ∈ items) (sets : Sets items options) :
      Asks items (.calculate expression options)
  | session {options : Options} (unstopped : Unstopped items)
      (absent : ∀ text, .expression text ∉ items) (sets : Sets items options) :
      Asks items (.session options)

namespace Item

def isExpression : Item → Bool
  | .expression _ => true
  | .precision _ | .rpn | .verbose | .help | .version | .refused => false

def isPrecision : Item → Bool
  | .precision _ => true
  | .expression _ | .rpn | .verbose | .help | .version | .refused => false

def isRpn : Item → Bool
  | .rpn => true
  | .expression _ | .precision _ | .verbose | .help | .version | .refused => false

end Item

/-- Items stop only for what they are or for one of their kind in front of them. -/
theorem unstopped_of_once {items : List Item} (alone : ∀ item ∈ items, ∀ stop, ¬Stops [] item stop)
    (expression : items.countP Item.isExpression ≤ 1) (precision : items.countP Item.isPrecision ≤ 1)
    (rpn : items.countP Item.isRpn ≤ 1) : Unstopped items := by
  rintro index stop ⟨item, here, stops⟩
  have member := List.mem_of_getElem? here
  have split : items = items.take index ++ item :: items.drop (index + 1) := by
    obtain ⟨less, rfl⟩ := List.getElem?_eq_some_iff.mp here
    rw [← List.drop_eq_getElem_cons less, List.take_append_drop]
  have twice {kind : Item → Bool} {other : Item} (one : kind item = true)
      (again : other ∈ items.take index) (two : kind other = true) : ¬items.countP kind ≤ 1 := by
    have earlier : 0 < (items.take index).countP kind := List.countP_pos_iff.mpr ⟨other, again, two⟩
    rw [split, List.countP_append, List.countP_cons_of_pos one]
    omega
  cases stops with
  | help => exact alone _ member _ .help
  | version => exact alone _ member _ .version
  | refused => exact alone _ member _ .refused
  | unreadable unreadable => exact alone _ member _ (.unreadable unreadable)
  | precision again => exact twice rfl again rfl precision
  | rpn again => exact twice rfl again rfl rpn
  | expression again => exact twice rfl again rfl expression

theorem places?_eq_some_iff {text : List Char} {places : Nat} :
    places? text = some places ↔ SpellsPlaces text places := by
  have unsigned {digits rest : List Char} (all : ∀ c ∈ digits, Decimal.isDigit c = true) :
      digits ≠ '+' :: rest := by
    rintro rfl
    exact absurd (all '+' List.mem_cons_self) (by decide)
  have read {digits : List Char} {number : Nat} :
      (if digits ≠ [] ∧ digits.all Decimal.isDigit = true then
        if Nat.ofDigitChars 10 digits 0 ≤ 0xffffffffffffffff then some (Nat.ofDigitChars 10 digits 0)
        else none
      else none) = some number ↔
        (digits ≠ [] ∧ (∀ c ∈ digits, Decimal.isDigit c = true) ∧
          Nat.ofDigitChars 10 digits 0 = number) ∧ number ≤ 0xffffffffffffffff := by
    constructor
    · intro found
      split at found
      · next valid =>
          split at found
          · next bound =>
              cases found
              exact ⟨⟨valid.1, List.all_eq_true.mp valid.2, rfl⟩, bound⟩
          · cases found
      · cases found
    · rintro ⟨⟨nonempty, all, rfl⟩, bound⟩
      rw [if_pos ⟨nonempty, List.all_eq_true.mpr all⟩, if_pos bound]
  unfold places?
  dsimp only
  split
  · next rest =>
      rw [read]
      constructor
      · rintro ⟨valid, bound⟩
        exact ⟨⟨rest, .inr rfl, valid⟩, bound⟩
      · rintro ⟨⟨digits, rfl | same, valid⟩, bound⟩
        · exact absurd rfl (unsigned valid.2.1)
        · cases same
          exact ⟨valid, bound⟩
  · next plain =>
      rw [read]
      constructor
      · rintro ⟨valid, bound⟩
        exact ⟨⟨text, .inl rfl, valid⟩, bound⟩
      · rintro ⟨⟨digits, rfl | same, valid⟩, bound⟩
        · exact ⟨valid, bound⟩
        · exact absurd same (plain digits)

theorem places?_eq_none_iff {text : List Char} :
    places? text = none ↔ ∀ places, ¬SpellsPlaces text places := by
  simp only [Option.eq_none_iff_forall_ne_some, Ne, places?_eq_some_iff]

/-- The scan holds what the items in front have set. -/
structure Follows (front : List Item) (state : Scan) : Prop where
  served : state.awaitsPrecision = false
  expression : ∀ text, state.expression = some text ↔ .expression text ∈ front
  precision : ∀ places, state.precision = some places ↔
    ∃ text, .precision text ∈ front ∧ SpellsPlaces text places
  readable : ∀ text, .precision text ∈ front → ∃ places, SpellsPlaces text places
  rpn : state.rpn = true ↔ .rpn ∈ front

variable {items front : List Item} {item : Item} {state next : Scan}

theorem Follows.takeItem (follows : Follows front state) (stepped : state.takeItem item = .ok next) :
    Follows (front ++ [item]) next := by
  obtain ⟨served, expression, precision, readable, rpn⟩ := follows
  cases item with
  | expression text =>
      simp only [Scan.takeItem, Scan.takeExpression] at stepped
      split at stepped <;> cases stepped
      next absent =>
        refine ⟨served, fun other => ?_, by simpa using precision, by simpa using readable,
          by simpa using rpn⟩
        simp [← expression, absent, eq_comm]
  | precision text =>
      simp only [Scan.takeItem, Scan.takePrecision] at stepped
      split at stepped <;> cases stepped
      next places unset found =>
        rw [places?_eq_some_iff] at found
        have fresh : ∀ other, .precision other ∉ front := by
          intro other member
          obtain ⟨number, spells⟩ := readable other member
          rw [(precision number).mpr ⟨other, member, spells⟩] at unset
          cases unset
        refine ⟨rfl, by simpa using expression, fun number => ?_, ?_, by simpa using rpn⟩
        · simp only [List.mem_append, fresh, List.mem_singleton, Item.precision.injEq, false_or,
            exists_eq_left]
          rw [← places?_eq_some_iff, places?_eq_some_iff.mpr found]
        · intro other member
          rcases List.mem_append.mp member with member | same
          · exact absurd member (fresh other)
          · cases List.mem_singleton.mp same
            exact ⟨places, found⟩
  | rpn =>
      simp only [Scan.takeItem, Scan.takeFlag] at stepped
      split at stepped <;> cases stepped
      exact ⟨served, by simpa using expression, by simpa using precision, by simpa using readable,
        by simp⟩
  | verbose =>
      cases stepped
      exact ⟨served, by simpa using expression, by simpa using precision, by simpa using readable,
        by simpa using rpn⟩
  | help | version | refused => cases stepped

theorem stops_iff_takeItem (follows : Follows front state) {stop : Stop} :
    Stops front item stop ↔ state.takeItem item = .error stop := by
  constructor
  · intro stops
    cases stops with
    | help | version | refused => rfl
    | unreadable unreadable =>
        rw [Scan.takeItem, Scan.takePrecision, places?_eq_none_iff.mpr unreadable]
        cases state.precision <;> rfl
    | @precision text other again =>
        obtain ⟨places, spells⟩ := follows.readable other again
        rw [Scan.takeItem, Scan.takePrecision, (follows.precision places).mpr ⟨other, again, spells⟩]
    | rpn again => rw [Scan.takeItem, Scan.takeFlag, follows.rpn.mpr again, if_pos rfl]
    | expression again =>
        rw [Scan.takeItem, Scan.takeExpression, (follows.expression _).mpr again]
  · intro failed
    cases item with
    | expression text =>
        simp only [Scan.takeItem, Scan.takeExpression] at failed
        split at failed <;> cases failed
        next found => exact .expression ((follows.expression _).mp found)
    | precision text =>
        rw [Scan.takeItem, Scan.takePrecision] at failed
        cases set : state.precision with
        | some places =>
            obtain ⟨other, again, _⟩ := (follows.precision places).mp set
            rw [set] at failed
            cases failed
            exact .precision again
        | none =>
            cases read : places? text with
            | some places =>
                rw [set, read] at failed
                cases failed
            | none =>
                rw [set, read] at failed
                cases failed
                exact .unreadable (places?_eq_none_iff.mp read)
    | rpn =>
        simp only [Scan.takeItem, Scan.takeFlag] at failed
        split at failed <;> cases failed
        next again => exact .rpn (follows.rpn.mp again)
    | verbose => cases failed
    | help =>
        cases failed
        exact .help
    | version =>
        cases failed
        exact .version
    | refused =>
        cases failed
        exact .refused

theorem follows_nil : Follows [] {} := ⟨rfl, by simp, by simp, by simp, by simp⟩

/-- What items set is what the scan of them holds. -/
theorem Follows.sets_iff (follows : Follows items state) {options : Options} :
    Sets items options ↔ (⟨state.precision.getD 10, state.rpn⟩ : Options) = options := by
  constructor
  · rintro ⟨precision, rpn⟩
    have places : state.precision.getD 10 = options.precision := by
      rcases precision with set | ⟨unset, default⟩
      · rw [(follows.precision _).mpr set]
        rfl
      · have none : state.precision = none := by
          rw [Option.eq_none_iff_forall_ne_some]
          intro places set
          obtain ⟨text, member, _⟩ := (follows.precision places).mp set
          exact unset text member
        rw [none, default]
        rfl
    have form : state.rpn = options.rpn := by rw [Bool.eq_iff_iff, follows.rpn, rpn]
    rw [places, form]
  · rintro rfl
    refine ⟨?_, follows.rpn⟩
    cases set : state.precision with
    | some places => exact .inl ((follows.precision places).mp set)
    | none =>
        refine .inr ⟨fun text member => ?_, rfl⟩
        obtain ⟨places, spells⟩ := follows.readable text member
        rw [(follows.precision places).mpr ⟨text, member, spells⟩] at set
        cases set

theorem asks_iff {request : Request} :
    Asks items request ↔ Request.conclude (items.foldlM Scan.takeItem {}) = request := by
  have keeps := fun front item state next => @Follows.takeItem front item state next
  have blames : ∀ item ∈ items, ∀ front state stop, Follows front state →
      (Stops front item stop ↔ state.takeItem item = .error stop) :=
    fun item _ front state stop follows => stops_iff_takeItem follows
  have failed := fun stop => @foldlM_eq_error_iff _ _ _ _ _ _ _ items stop follows_nil keeps blames
  have succeeds := (foldlM_first follows_nil keeps blames).1
  have reached (unstopped : Unstopped items) :
      ∃ state, items.foldlM Scan.takeItem {} = .ok state ∧ Follows items state := by
    cases run : items.foldlM Scan.takeItem {} with
    | ok state => exact ⟨state, rfl, (succeeds state run).1⟩
    | error stop =>
        obtain ⟨index, broken, _⟩ := (failed stop).mp run
        exact absurd broken (unstopped index stop)
  constructor
  · intro asks
    cases asks with
    | stop first =>
        rw [(failed _).mpr first]
        rfl
    | calculate unstopped given sets =>
        obtain ⟨state, run, follows⟩ := reached unstopped
        rw [run, ← follows.sets_iff.mp sets, Request.conclude, Scan.finish, follows.served,
          (follows.expression _).mpr given]
        rfl
    | session unstopped absent sets =>
        obtain ⟨state, run, follows⟩ := reached unstopped
        have none : state.expression = none := by
          rw [Option.eq_none_iff_forall_ne_some]
          exact fun text found => absent text ((follows.expression text).mp found)
        rw [run, ← follows.sets_iff.mp sets, Request.conclude, Scan.finish, follows.served, none]
        rfl
  · rintro rfl
    cases run : items.foldlM Scan.takeItem {} with
    | error stop => exact .stop ((failed stop).mp run)
    | ok state =>
        obtain ⟨follows, unstopped⟩ := succeeds state run
        have sets := follows.sets_iff.mpr rfl
        rw [Request.conclude, Scan.finish, follows.served]
        cases found : state.expression with
        | some text => exact .calculate unstopped ((follows.expression text).mp found) sets
        | none =>
            refine .session unstopped (fun text member => ?_) sets
            rw [(follows.expression text).mpr member] at found
            cases found

/-- What arguments ask for follows from the rules, and nothing else does. -/
theorem Request.ofArguments_eq_iff {arguments : List String} {request : Request} :
    ofArguments arguments = request ↔ ∃ items, Spelled false arguments items ∧ Asks items request := by
  have read {items : List Item} (spelled : Spelled false arguments items) :
      ofArguments arguments = conclude (items.foldlM Scan.takeItem {}) := by
    rw [ofArguments_eq]
    exact conclude_spelled spelled ⟨rfl, rfl⟩ rfl
  constructor
  · rintro rfl
    obtain ⟨items, spelled⟩ := exists_spelled false arguments
    exact ⟨items, spelled, asks_iff.mpr (read spelled).symm⟩
  · rintro ⟨items, spelled, asks⟩
    exact (read spelled).trans (asks_iff.mp asks)

end InfixCalculator.CommandLine
