import CueCheck.Options
import CueCheck.Text.Numeral

/-!
# Settings of options

Options are set by keys and values, from the lines of a settings file and from overrides of the form
`key=value`. A value is true or false by a word in any letter case, or by an integer.

* `readFlag?` reads a value.
* `Options.ofSettings` applies a file, then overrides, and reports the first key that is no option
  or value that is no truth value.

This is how the program loads options when it runs; a request is answered with any other loader as
well. Of what settings files may be written in, it reads comments and lines of a plain key and a
value. It knows no document markers, no values that go on over lines or in brackets and no quotes
around keys, and a key may come twice.
-/

namespace CueCheck

/-- A key and the value given to it, if one is given. -/
structure Setting where
  key : List Char
  value? : Option (List Char)
deriving DecidableEq, Repr

/-- Why settings give no options. -/
inductive SettingError where
  | unknownKey (key : List Char)
  | badValue (key : List Char)
deriving DecidableEq, Repr

/-- The words for it. -/
def SettingError.message : SettingError → String
  | .unknownKey key => "Unknown option: " ++ String.ofList key
  | .badValue key => "Neither true nor false: " ++ String.ofList key

/-! ## Values -/

/-- White space within a line. -/
def isLineSpace (c : Char) : Bool :=
  c == ' ' || c == '\t' || c == '\r'

/-- A text without the white space at its ends. -/
def trimLine (text : List Char) : List Char :=
  ((text.dropWhile isLineSpace).reverse.dropWhile isLineSpace).reverse

/-- A text up to a comment, which begins with a number sign at its start or after white space. -/
def dropComment : List Char → List Char
  | [] => []
  | c :: rest => if c = '#' then [] else c :: afterChar c rest
where
  /-- The text after a character that stays. -/
  afterChar (last : Char) : List Char → List Char
    | [] => []
    | c :: rest => if c = '#' && isLineSpace last then [] else c :: afterChar c rest

/-- The text of a written value: what stands between quotes, or the value without its comment. -/
def scalarText (written : List Char) : List Char :=
  match trimLine written with
  | '\'' :: rest => rest.takeWhile (· != '\'')
  | '"' :: rest => rest.takeWhile (· != '"')
  | plain => trimLine (dropComment plain)

/-- The words for true. -/
def trueWords : List String := ["true", "yes", "on", "y"]

/-- The words for false. -/
def falseWords : List String := ["false", "no", "off", "n"]

/-- A truth value by its word, in any letter case. -/
def wordFlag? (word : List Char) : Option Bool :=
  let lower := String.ofList (word.map Char.toLower)
  if lower ∈ trueWords then some true else if lower ∈ falseWords then some false else none

/-- A written truth value: an integer is true unless it is zero. -/
def readFlag? (written : List Char) : Option Bool :=
  let value := scalarText written
  match integer? value with
  | some n => some (n != 0)
  | none => wordFlag? value

/-! ## Where settings come from -/

/-- The setting of a line; blank lines and comments set nothing. -/
def settingOfLine? (line : List Char) : Option Setting :=
  match trimLine line with
  | [] => none
  | '#' :: _ => none
  | text =>
    let key := text.takeWhile (· != ':')
    some { key := trimLine key, value? := some (text.drop (key.length + 1)) }

/-- The lines of a text. -/
def linesOf (text : List Char) : List (List Char) :=
  text.splitOn '\n'

/-- The settings of a settings file. -/
def settingsOfFile (text : List Char) : List Setting :=
  (linesOf text).filterMap settingOfLine?

/-- The setting of an override. Without an equals sign it gives no value. -/
def settingOfOverride (override : List Char) : Setting :=
  let key := override.takeWhile (· != '=')
  match override.drop key.length with
  | [] => { key, value? := none }
  | _ :: value => { key, value? := some value }

/-- Settings with one more; the last value of a key counts, where the key first came. -/
def putSetting (setting : Setting) : List Setting → List Setting
  | [] => [setting]
  | old :: rest => if old.key = setting.key then setting :: rest else old :: putSetting setting rest

/-- The settings of a list of overrides. -/
def settingsOfOverrides (overrides : List (List Char)) : List Setting :=
  overrides.foldl (fun settings override => putSetting (settingOfOverride override) settings) []

namespace Options

/-- How to set an option by its key. -/
def setter? (key : List Char) : Option (Options → Bool → Options) :=
  if key = "ignore_voice_source".toList then
    some fun options flag => { options with ignoreVoices := flag }
  else if key = "interruptible_pattern".toList then
    some fun options flag => { options with interruptible := flag }
  else if key = "triangleshot".toList then
    some fun options flag => { options with triangles := flag }
  else none

/-- Applies one setting. -/
def apply (options : Options) (setting : Setting) : Except SettingError Options :=
  match setter? setting.key with
  | none => .error (.unknownKey setting.key)
  | some set =>
    match setting.value?.bind readFlag? with
    | some flag => .ok (set options flag)
    | none => .error (.badValue setting.key)

/-- The options of a settings file, if there is one, and overrides. -/
def ofSettings (file : Option (List Char)) (overrides : List (List Char)) :
    Except SettingError Options := do
  let options ← ((file.map settingsOfFile).getD []).foldlM apply {}
  (settingsOfOverrides overrides).foldlM apply options

end Options

end CueCheck
