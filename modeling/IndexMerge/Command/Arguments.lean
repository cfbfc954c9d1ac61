import IndexMerge.Command.Dump
import IndexMerge.Command.Inspect
import IndexMerge.Command.Merge

/-!
# Arguments

How the words of a command line ask for a command. A name of an option with two dashes may carry
its value behind an equals sign, one with a dash may carry it directly; `--` ends the options.
-/

namespace IndexMerge.Command

/-- A command with what it is asked to do. -/
inductive Request where
  | merge (r : MergeRequest)
  | inspect (r : InspectRequest)
  | dump (r : DumpRequest)
  deriving Repr

/-- What a command line asks for, and how much is told on the way. -/
structure Arguments where
  verbosity : Nat
  request : Request
  deriving Repr

/-- The words of a command line by their role. -/
structure Words where
  switches : Array String
  settings : Array (String × String)
  operands : Array String
  deriving Repr

namespace Words

/-- No words. -/
def empty : Words := ⟨#[], #[], #[]⟩

/-- Adds an option that has no value. -/
def addSwitch (words : Words) (name : String) : Words :=
  { words with switches := words.switches.push name }

/-- Adds an option with its value. -/
def addSetting (words : Words) (name value : String) : Words :=
  { words with settings := words.settings.push (name, value) }

/-- The options that have a value, by their full names. -/
def valued : List String := ["run", "inverted", "lexicon", "config", "progress-interval"]

/-- The options that have none. -/
def plain : List String := ["no-verify-ranges", "postings", "verbose"]

/-- The words of a command line, or what is wrong with it. -/
def ofList : List String → Words → Except String Words
  | [], words => .ok words
  | "--" :: rest, words => .ok { words with operands := words.operands ++ rest }
  | word :: rest, words =>
    if word.startsWith "--" then
      let name := ((word.drop 2).takeWhile (· != '=')).copy
      let value := ((word.drop 2).dropWhile (· != '=')).copy
      if value != "" && valued.contains name then
        ofList rest (words.addSetting name (value.drop 1).copy)
      else if value == "" && plain.contains name then ofList rest (words.addSwitch name)
      else if value == "" && valued.contains name then
        match rest with
        | given :: rest => ofList rest (words.addSetting name given)
        | [] => .error s!"a value is required for '--{name}'"
      else .error s!"unexpected argument '{word}'"
    else if word.startsWith "-" && word != "-" then
      let letters := (word.drop 1).copy
      if letters.all (· == 'v') then
        ofList rest (letters.foldl (fun words _ => words.addSwitch "verbose") words)
      else if letters == "r" then
        match rest with
        | given :: rest => ofList rest (words.addSetting "run" given)
        | [] => .error "a value is required for '-r'"
      else if letters.startsWith "r" then
        ofList rest (words.addSetting "run" (letters.drop 1).copy)
      else .error s!"unexpected argument '{word}'"
    else ofList rest { words with operands := words.operands.push word }

/-- The values of an option. -/
def values (words : Words) (name : String) : List String :=
  words.settings.toList.filterMap fun (found, value) => if found == name then some value else none

/-- The value of an option that is given at most once. -/
def value? (words : Words) (name : String) : Except String (Option String) :=
  match words.values name with
  | [] => .ok none
  | [value] => .ok (some value)
  | _ => .error s!"the argument '--{name}' cannot be used multiple times"

/-- The value of an option that is given once. -/
def value (words : Words) (name : String) : Except String String := do
  match ← words.value? name with
  | some value => return value
  | none => throw s!"'--{name}' is required"

/-- Refuses options that are not for a command. -/
def allow (words : Words) (names : List String) : Except String Unit :=
  let given := words.switches.toList ++ words.settings.toList.map (·.1)
  match given.find? fun name => name != "verbose" && !names.contains name with
  | some name => .error s!"unexpected argument '--{name}'"
  | none => .ok ()

/-- How often the user asked to be told more. -/
def verbosity (words : Words) : Nat := words.switches.toList.count "verbose"

end Words

/-- A number of terms. -/
def parseInterval (text : String) : Except String Nat :=
  match text.toNat? with
  | some n => if n < UInt64.size then .ok n else .error s!"invalid value '{text}'"
  | none => .error s!"invalid value '{text}'"

/-- The command that words ask for. -/
def Request.ofWords (words : Words) : Except String Request := do
  match words.operands.toList with
  | ["merge"] =>
    words.allow ["run", "inverted", "lexicon", "config", "no-verify-ranges", "progress-interval"]
    let runs := words.values "run"
    if runs.isEmpty then throw "'--run' is required"
    let inverted ← words.value "inverted"
    let lexicon ← words.value "lexicon"
    let config ← words.value? "config"
    let progressInterval ← (← words.value? "progress-interval").mapM parseInterval
    let skipsRanges := words.switches.contains "no-verify-ranges"
    return .merge { runs, inverted, lexicon, config, skipsRanges, progressInterval }
  | ["inspect-run", path] =>
    words.allow ["postings"]
    let postings := words.switches.contains "postings"
    return .inspect ⟨path, words.verbosity != 0, postings⟩
  | ["dump-lexicon", lexicon] =>
    words.allow ["inverted"]
    return .dump ⟨lexicon, ← words.value? "inverted"⟩
  | _ => throw "a command is required: merge, inspect-run or dump-lexicon"

/-- What the words of a command line ask for. -/
def Arguments.ofList (line : List String) : Except String Arguments := do
  let words ← Words.ofList line .empty
  return ⟨words.verbosity, ← Request.ofWords words⟩

namespace Request

/-- Carries out a command. -/
def run : Request → FileStore → Outcome
  | .merge r => Command.merge r
  | .inspect r => Command.inspect r
  | .dump r => Command.dump r

/-- The paths that a command reads. -/
def inputs : Request → List String
  | .merge r => r.runs ++ r.config.toList
  | .inspect r => [r.path]
  | .dump r => r.lexicon :: r.inverted.toList

/-- The paths that a command creates. -/
def outputs : Request → List String
  | .merge r => [r.inverted, r.lexicon]
  | .inspect _ | .dump _ => []

end Request

end IndexMerge.Command
