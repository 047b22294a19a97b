import CueCheck.Text.Digit

/-!
# Arguments

The arguments of a command line name a level file and options of a check.

* `Argument.ofText` says what one argument is.
* `Asked.ofArguments` reads all of them. An ambiguous option is refused before any other is looked
  at. The rest are read from the first to the last. Help is given as soon as it is asked for. A
  switch with a value and an option that lacks its value end the reading; an option that is not
  known and a second operand are only refused when everything is read, so that help may still be
  asked for behind them.
-/

namespace CueCheck

/-! ## Options -/

/-- An option that takes no value. -/
inductive Switch where
  | help
  | ignoreSource
  | interruptiblePattern
  | triangleshot
  | verbose
deriving DecidableEq, Repr

/-- An option that takes a value. -/
inductive Parameter where
  | config
  | override
deriving DecidableEq, Repr

/-- An option by its long name. -/
def longOptions : List (String × (Switch ⊕ Parameter)) :=
  [("--help", .inl .help), ("--ignore-source", .inl .ignoreSource),
    ("--interruptible-pattern", .inl .interruptiblePattern), ("--triangleshot", .inl .triangleshot),
    ("--config", .inr .config), ("--set", .inr .override), ("--verbose", .inl .verbose)]

/-- A switch by its letter. -/
def switchOfLetter? (c : Char) : Option Switch :=
  if c = 'h' then some .help
  else if c = 's' then some .ignoreSource
  else if c = 'p' then some .interruptiblePattern
  else if c = 't' then some .triangleshot
  else if c = 'v' then some .verbose
  else none

/-! ## One argument -/

/-- What an argument is. -/
inductive Argument where
  /-- Not an option. -/
  | operand (text : List Char)
  /-- Switches, and whether a letter behind them is that of no switch. -/
  | switches (letters : List Switch) (more : Bool)
  /-- An option that takes a value, with the value if it is joined on. -/
  | parameter (which : Parameter) (value? : Option (List Char))
  /-- The rest of the arguments are no options. -/
  | separator
  /-- An option that is not known. -/
  | unrecognized
  /-- A name that is cut short and may stand for several options. -/
  | ambiguous
  /-- A switch with a value. -/
  | bad
deriving DecidableEq, Repr

/-- A number with a minus sign: decimal digits of any script, with at most one point before the last
of them. -/
def isNegativeNumber : List Char → Bool
  | '-' :: body =>
    let isDigit (c : Char) := (decimalDigit? c).isSome
    let fraction := (body.dropWhile isDigit).drop 1
    if (body.dropWhile isDigit).isEmpty then !body.isEmpty
    else (body.dropWhile isDigit).head? == some '.' && !fraction.isEmpty && fraction.all isDigit
  | _ => false

/-- The long options that a name may stand for: the one of that name, or else all that begin with
it. -/
def longCandidates (name : List Char) : List (Switch ⊕ Parameter) :=
  match longOptions.find? (·.1.toList = name) with
  | some (_, option) => [option]
  | none => (longOptions.filter (name.isPrefixOf ·.1.toList)).map (·.2)

namespace Argument

/-- An argument that names no option: with a space in it, or as a negative number, it is no option
at all. -/
def unknown (text : List Char) : Argument :=
  if isNegativeNumber text || text.contains ' ' then .operand text else .unrecognized

/-- A long option, cut short or not, with its value if there is an equals sign. -/
def ofLong (text : List Char) : Argument :=
  let name := text.takeWhile (· != '=')
  let value? := match text.drop name.length with
    | [] => none
    | _ :: value => some value
  match longCandidates name, value? with
  | [.inl switch], none => .switches [switch] false
  | [.inl _], some _ => .bad
  | [.inr which], value? => .parameter which value?
  | [], _ => unknown text
  | _, _ => .ambiguous

/-- Letters of switches joined to one. An equals sign or a hyphen among them would give a switch a
value. -/
def joined (switches : List Switch) : List Char → Argument
  | [] => .switches switches.reverse false
  | c :: rest =>
    match switchOfLetter? c with
    | some switch => joined (switch :: switches) rest
    | none => if c = '=' || c = '-' then .bad else .switches switches.reverse true

/-- A switch by its letter, with others joined to it. -/
def ofLetters (text : List Char) : Argument :=
  match text.drop 1 with
  | first :: others =>
    match switchOfLetter? first with
    | none => unknown text
    | some switch => joined [switch] others
  | [] => .operand text

/-- What an argument is. -/
def ofText (text : List Char) : Argument :=
  match text with
  | ['-', '-'] => .separator
  | '-' :: '-' :: _ => ofLong text
  | '-' :: _ => ofLetters text
  | _ => .operand text

end Argument

/-! ## All arguments -/

/-- A check of a level: the file it is in, the settings file, overrides of settings and switches. -/
structure Request where
  level? : Option (List Char) := none
  config? : Option (List Char) := none
  overrides : List (List Char) := []
  switches : List Switch := []
deriving DecidableEq, Repr

namespace Request

/-- Takes the value of a parameter. The last config counts, and every override. -/
def takeValue (request : Request) (value : List Char) : Parameter → Request
  | .config => { request with config? := some value }
  | .override => { request with overrides := request.overrides ++ [value] }

/-- The switches that override a setting, each with what it stands for. -/
def overrideSwitches : List (Switch × String) :=
  [(.ignoreSource, "ignore_voice_source=true"),
    (.interruptiblePattern, "interruptible_pattern=true"), (.triangleshot, "triangleshot=true")]

/-- All overrides. Those of the switches that are on come last, in an order of their own. -/
def allOverrides (request : Request) : List (List Char) :=
  request.overrides ++
    (overrideSwitches.filter (·.1 ∈ request.switches)).map (·.2.toList)

end Request

/-- What a command line asks for. -/
inductive Asked where
  | check (request : Request)
  | help
  | badUsage
deriving DecidableEq, Repr

namespace Asked

/-- Arguments that are no options. The first names the level, unless that is named already; nothing
may be left over. -/
def ofOperands (request : Request) (leftOver : Bool) (operands : List (List Char)) : Asked :=
  match request.level?, operands with
  | none, [level] => if leftOver then .badUsage else .check { request with level? := some level }
  | _, [] => if leftOver then .badUsage else .check request
  | _, _ => .badUsage

/-- Reads arguments on top of a request. `leftOver` says that an argument before them is refused. -/
def ofTexts (request : Request) (leftOver : Bool) : List (List Char) → Asked
  | [] => ofOperands request leftOver []
  | text :: rest =>
    match Argument.ofText text with
    | .ambiguous | .bad => .badUsage
    | .unrecognized => ofTexts request true rest
    | .switches letters more =>
      if .help ∈ letters then .help
      else ofTexts { request with switches := request.switches ++ letters } (leftOver || more) rest
    | .parameter which (some value) => ofTexts (request.takeValue value which) leftOver rest
    | .parameter which none =>
      match rest with
      | [] => .badUsage
      | next :: rest =>
        match Argument.ofText next with
        | .operand value => ofTexts (request.takeValue value which) leftOver rest
        | _ => .badUsage
    | .operand text =>
      if request.level?.isSome then ofTexts request true rest
      else
        let request := { request with level? := some text }
        -- A separator right behind the level belongs to it.
        match rest with
        | ['-', '-'] :: rest => ofOperands request leftOver rest
        | rest => ofTexts request leftOver rest
    | .separator =>
      -- A separator that comes later than that is left over itself.
      ofOperands request (leftOver || request.level?.isSome) rest

/-- An option before the first separator is ambiguous. -/
def hasAmbiguous (texts : List (List Char)) : Bool :=
  ((texts.map Argument.ofText).takeWhile (· ≠ .separator)).contains .ambiguous

/-- Reads arguments. -/
def ofArguments (arguments : List String) : Asked :=
  let texts := arguments.map String.toList
  if hasAmbiguous texts then .badUsage else ofTexts {} false texts

end Asked

end CueCheck
