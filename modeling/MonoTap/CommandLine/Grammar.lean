import MonoTap.Number.Numeral
import MonoTap.Text.Quoted

/-!
# Command line grammars

The options of a command, what stands beside them, and how a list of arguments is read by them. A
long option may be cut short as long as only one has that start, and its value may follow a sign of
equality. Two dashes end the options. What nothing accounts for is left over.
-/

set_option autoImplicit false

namespace MonoTap.CommandLine

/-- What an option takes: nothing, as a request for help or as a mark, or a value. -/
inductive OptionKind where
  | help
  | mark
  | anyText
  | oneOf (choices : List String)
  | wholeNumber
  deriving DecidableEq, Repr

/-- Whether an option takes a value. -/
def OptionKind.takesValue : OptionKind → Bool
  | .help => false
  | .mark => false
  | _ => true

/-- An option with its spellings. -/
structure Flag where
  names : List String
  kind : OptionKind
  deriving DecidableEq, Repr

/-- The name of an option in messages. -/
def Flag.shownName (f : Flag) : String := "/".intercalate f.names

/-- The one argument that stands beside the options. A choice takes all arguments after it along. -/
inductive Operand where
  | argument (name : String)
  | choice (name : String) (choices : List String)
  deriving DecidableEq, Repr

/-- The name of an operand. -/
def Operand.name : Operand → String
  | .argument name => name
  | .choice name _ => name

/-- A command: how it is called, its options, and its operand if it has one. -/
structure Grammar where
  program : String
  flags : List Flag
  operand : Option Operand
  deriving DecidableEq, Repr

/-- Why arguments are refused. -/
inductive UsageFault where
  | ambiguous (argument : String) (matching : List String)
  | noValue (name : String)
  | needlessValue (name value : String)
  | invalidChoice (name value : String) (choices : List String)
  | invalidNumber (name value : String)
  | missing (name : String)
  | unrecognized (arguments : List String)
  deriving DecidableEq, Repr

/-- The wording of the fault. -/
def UsageFault.message : UsageFault → String
  | .ambiguous argument matching =>
    "ambiguous option: " ++ argument ++ " could match " ++ ", ".intercalate matching
  | .noValue name => "argument " ++ name ++ ": expected one argument"
  | .needlessValue name value =>
    "argument " ++ name ++ ": ignored explicit argument " ++ Text.quoted value
  | .invalidChoice name value choices =>
    "argument " ++ name ++ ": invalid choice: " ++ Text.quoted value ++ " (choose from " ++
      ", ".intercalate (choices.map Text.quoted) ++ ")"
  | .invalidNumber name value => "argument " ++ name ++ ": invalid int value: " ++ Text.quoted value
  | .missing name => "the following arguments are required: " ++ name
  | .unrecognized arguments => "unrecognized arguments: " ++ " ".intercalate arguments

/-- Why reading ends early: help is asked for, or the arguments are refused. -/
inductive Stop where
  | help
  | refused (fault : UsageFault)
  deriving DecidableEq, Repr

/-- An option as an argument gives it: its spelling, and the value given along with it, which may
follow a sign of equality. -/
structure Given where
  flag : Flag
  name : String
  value : Option String
  separated : Bool
  deriving DecidableEq, Repr

/-- What an argument is by its look. -/
inductive Look where
  | operand
  | separator
  | known (g : Given)
  | unknown
  deriving DecidableEq, Repr

/-- A text up to the first sign of equality, and what comes after the sign. -/
def atEquality (s : String) : String × Option String :=
  let cs := s.toList
  match cs.dropWhile (· != '=') with
  | _ :: value => (String.ofList (cs.takeWhile (· != '=')), some (String.ofList value))
  | [] => (s, none)

/-- Whether a text is a negative number. -/
def isNegativeNumber (s : String) : Bool :=
  let isDigit : Char → Bool := fun c => (Number.digitValue? c).isSome
  match s.toList with
  | '-' :: cs =>
    let cs := if cs.getLast? == some '\n' then cs.dropLast else cs
    match cs.dropWhile isDigit with
    | [] => !cs.isEmpty
    | '.' :: fraction => !fraction.isEmpty && fraction.all isDigit
    | _ => false
  | _ => false

namespace Grammar

/-- All spellings of options, each with its option. -/
def spellings (g : Grammar) : List (String × Flag) :=
  g.flags.flatMap fun f => f.names.map fun name => (name, f)

/-- The option with a spelling. -/
def flag? (g : Grammar) (name : String) : Option Flag :=
  (g.spellings.find? (·.1 == name)).map Prod.snd

/-- The options that an argument may give by a start of a spelling, or by a letter with a value
right after it. -/
def candidates (g : Grammar) (argument : String) : List Given :=
  let cs := argument.toList
  if cs.take 2 == ['-', '-'] then
    let (start, value) := atEquality argument
    (g.spellings.filter fun (name, _) => start.toList.isPrefixOf name.toList).map fun (name, f) =>
      ⟨f, name, value, value.isSome⟩
  else
    g.spellings.filterMap fun (name, f) =>
      if name.toList == cs.take 2 then some ⟨f, name, some (String.ofList (cs.drop 2)), false⟩
      else if cs.isPrefixOf name.toList then some ⟨f, name, none, false⟩
      else none

/-- What an argument is by its look. -/
def look (g : Grammar) (argument : String) : Except Stop Look :=
  match argument.toList with
  | '-' :: _ :: _ =>
    match g.flag? argument with
    | some f => .ok (.known ⟨f, argument, none, false⟩)
    | none =>
      let (start, value) := atEquality argument
      match value, g.flag? start with
      | some value, some f => .ok (.known ⟨f, start, some value, true⟩)
      | _, _ =>
        match g.candidates argument with
        | [given] => .ok (.known given)
        | [] =>
          if isNegativeNumber argument || argument.toList.contains ' ' then .ok .operand
          else .ok .unknown
        | several => .error (.refused (.ambiguous argument (several.map Given.name)))
  | _ => .ok .operand

/-- The arguments with their looks. After two dashes all are operands. -/
def looks (g : Grammar) : List String → Except Stop (List (String × Look))
  | [] => .ok []
  | a :: as =>
    if a == "--" then .ok ((a, .separator) :: as.map fun a => (a, .operand))
    else do
      let l ← g.look a
      return (a, l) :: (← g.looks as)

end Grammar

/-- What has been read: the options with their values, the operand with the arguments that it takes
along, and what is left over. -/
structure Reading where
  options : List (String × String)
  operand : Option (String × List String)
  extras : List String
  deriving DecidableEq, Repr

/-- Nothing read. -/
def Reading.empty : Reading := ⟨[], none, []⟩

namespace Grammar

/-- Whether an argument with this look is an option. -/
def isOption : Look → Bool
  | .known _ => true
  | .unknown => true
  | _ => false

/-- Whether an argument with this look ends the options. -/
def isSeparator : Look → Bool
  | .separator => true
  | _ => false

/-- The operand that comes, with the arguments that it takes along and the rest. -/
def takeOperand (operand : Operand) (items : List (String × Look)) :
    Option ((String × List String) × List (String × Look)) :=
  let marks := items.takeWhile (isSeparator ·.2)
  match items.dropWhile (isSeparator ·.2), operand with
  | (a, .operand) :: rest, .argument _ =>
    some ((a, []), rest.dropWhile (isSeparator ·.2))
  | (a, .operand) :: rest, .choice _ _ =>
    match marks ++ (a, .operand) :: rest with
    | (first, _) :: others => some ((first, others.map Prod.fst), [])
    | [] => none
  | _, _ => none

/-- Checks an operand. -/
def checkOperand (operand : Operand) (value : String) : Except Stop Unit :=
  match operand with
  | .argument _ => .ok ()
  | .choice name choices =>
    if choices.contains value then .ok ()
    else .error (.refused (.invalidChoice name value choices))

/-- Reads the operand if it comes and has not come yet. -/
def readOperand (g : Grammar) (items : List (String × Look)) (r : Reading) :
    Except Stop (Option (List (String × Look) × Reading)) :=
  match g.operand, r.operand with
  | some operand, none =>
    match takeOperand operand items with
    | some (taken, rest) => do
      checkOperand operand taken.1
      return some (rest, { r with operand := some taken })
    | none => .ok none
  | _, _ => .ok none

/-- Checks the value of an option. -/
def checkValue (f : Flag) (value : String) : Except Stop Unit :=
  match f.kind with
  | .oneOf choices =>
    if choices.contains value then .ok ()
    else .error (.refused (.invalidChoice f.shownName value choices))
  | .wholeNumber =>
    if (Number.integer? value.toList).isSome then .ok ()
    else .error (.refused (.invalidNumber f.shownName value))
  | _ => .ok ()

/-- Reads an option that takes no value. -/
def readMark (g : Given) (r : Reading) : Except Stop Reading :=
  let refuse (value : String) : Except Stop Reading :=
    .error (.refused (.needlessValue g.flag.shownName value))
  let take : Except Stop Reading :=
    if g.flag.kind == .help then .error .help
    else .ok { r with options := r.options ++ [(g.flag.shownName, "")] }
  match g.value with
  | none => take
  | some value =>
    let isLong := g.name.toList.take 2 == ['-', '-']
    if isLong || value.isEmpty || g.separated || value.toList.head? == some '-' then refuse value
    else take

/-- Reads an option, the first of some arguments. -/
def readOption (g : Given) (rest : List (String × Look)) (r : Reading) :
    Except Stop (List (String × Look) × Reading) :=
  if g.flag.kind.takesValue then
    let assign (value : String) (rest : List (String × Look)) :
        Except Stop (List (String × Look) × Reading) := do
      checkValue g.flag value
      return (rest, { r with options := r.options ++ [(g.flag.shownName, value)] })
    match g.value, rest with
    | some value, rest => assign value rest
    | none, (a, .operand) :: rest => assign a rest
    | none, _ => .error (.refused (.noValue g.flag.shownName))
  else (readMark g r).map fun r => (rest, r)

/-- Reads arguments one after the other. -/
def readAll (g : Grammar) : (fuel : Nat) → List (String × Look) → Reading → Except Stop Reading
  | 0, items, r => .ok { r with extras := r.extras ++ items.map Prod.fst }
  | fuel + 1, items, r => do
    match items with
    | (_, .known given) :: rest =>
      let (rest, r) ← readOption given rest r
      readAll g fuel rest r
    | (a, .unknown) :: rest => readAll g fuel rest { r with extras := r.extras ++ [a] }
    | items =>
      match ← g.readOperand items r with
      | some (rest, r) => readAll g fuel rest r
      | none =>
        let left := items.takeWhile (!isOption ·.2)
        let r := { r with extras := r.extras ++ left.map Prod.fst }
        if left.isEmpty then return r else readAll g fuel (items.dropWhile (!isOption ·.2)) r

/-- Reads the arguments of a command. Its operand has to be among them. -/
def read (g : Grammar) (arguments : List String) : Except Stop Reading := do
  let items ← g.looks arguments
  let r ← g.readAll (items.length + 1) items .empty
  match g.operand, r.operand with
  | some operand, none => throw (.refused (.missing operand.name))
  | _, _ => return r

end Grammar

/-- The last value that an option was given. -/
def Reading.value? (r : Reading) (name : String) : Option String :=
  (r.options.reverse.find? (·.1 == name)).map Prod.snd

/-- Whether an option was given. -/
def Reading.has (r : Reading) (name : String) : Bool :=
  r.options.any (·.1 == name)

/-- A command without an operand reads no arguments at all as nothing. -/
theorem Grammar.read_nil (g : Grammar) (h : g.operand = none) : g.read [] = .ok .empty := by
  simp [Grammar.read, Grammar.looks, Grammar.readAll, Grammar.readOperand, h, Reading.empty, bind,
    Except.bind, pure, Except.pure]

end MonoTap.CommandLine
