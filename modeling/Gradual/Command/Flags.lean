import Gradual.Text.Quoted

/-!
Flags of the command line. A flag begins with one dash or two and may hold its value after an equals
sign; a switch needs none, and any other flag may take the argument that follows it. Flags end at the
first argument that is none, or after two dashes alone.
-/
namespace Gradual.Command

structure Options where
  verbose : Bool
  config : String
  table : String
  cache : String
  cached : Bool
  deriving DecidableEq, Repr

def Options.unset : Options := ⟨false, "", "", "", false⟩

/-- What a flag sets. -/
inductive Setting where
  | switch (set : Options → Bool → Options)
  | text (set : Options → String → Options)

structure Flag where
  name : String
  setting : Setting
  about : String

/-- All flags in order of their names. -/
def flags : List Flag :=
  [⟨"cache", .text fun o s => { o with cache := s },
      "Relation cache database; overrides [cache] path"⟩,
    ⟨"cached", .switch fun o b => { o with cached := b },
      "Answer check/eq from the relation cache where possible"⟩,
    ⟨"config", .text fun o s => { o with config := s },
      "Directory containing sjsrt.toml (default: search upward from .)"⟩,
    ⟨"table", .text fun o s => { o with table := s },
      "Tag table (.yaml or .sjt); overrides [types] table"⟩,
    ⟨"v", .switch fun o b => { o with verbose := b }, "Verbose output (debug logging)"⟩]

def settingOf? (name : String) : Option Setting := (flags.find? (·.name = name)).map Flag.setting

inductive FlagError where
  | malformed (arg : String)
  | unknown (name : String)
  | badSwitch (value name : String)
  | missingValue (name : String)
  /-- Help was asked for, which is not an error but ends the run alike. -/
  | help
  deriving DecidableEq, Repr

def FlagError.message? : FlagError → Option String
  | malformed arg => some s!"bad flag syntax: {arg}"
  | unknown name => some s!"flag provided but not defined: -{name}"
  | badSwitch value name =>
    some ("invalid boolean value " ++ Text.quoted value ++ s!" for -{name}: parse error")
  | missingValue name => some s!"flag needs an argument: -{name}"
  | help => none

def switchValue? (text : String) : Option Bool :=
  if text ∈ ["1", "t", "T", "TRUE", "true", "True"] then some true
  else if text ∈ ["0", "f", "F", "FALSE", "false", "False"] then some false
  else none

/-- An argument as a flag sees it. -/
inductive Argument where
  | operand
  | endOfFlags
  | malformed
  | flag (name : String) (value : Option String)
  deriving DecidableEq, Repr

/-- Splits at the first equals sign. -/
def splitValue (cs : List Char) : Argument :=
  let name := cs.takeWhile (· ≠ '=')
  let value := match cs.drop name.length with
    | [] => none
    | _ :: value => some (String.ofList value)
  .flag (String.ofList name) value

def Argument.ofChars : List Char → Argument
  | ['-', '-'] => .endOfFlags
  | '-' :: '-' :: c :: cs => if c = '-' ∨ c = '=' then .malformed else splitValue (c :: cs)
  | '-' :: c :: cs => if c = '=' then .malformed else splitValue (c :: cs)
  | _ => .operand

/-- Reads the flags and leaves the other arguments. -/
def parseFlags : List String → Options → Except FlagError (Options × List String)
  | [], o => .ok (o, [])
  | arg :: rest, o =>
    match Argument.ofChars arg.toList with
    | .operand => .ok (o, arg :: rest)
    | .endOfFlags => .ok (o, rest)
    | .malformed => .error (.malformed arg)
    | .flag name value =>
      match settingOf? name with
      | none => if name = "help" ∨ name = "h" then .error .help else .error (.unknown name)
      | some (.switch set) =>
        match value with
        | none => parseFlags rest (set o true)
        | some text =>
          match switchValue? text with
          | none => .error (.badSwitch text name)
          | some b => parseFlags rest (set o b)
      | some (.text set) =>
        match value, rest with
        | some text, rest => parseFlags rest (set o text)
        | none, text :: rest => parseFlags rest (set o text)
        | none, [] => .error (.missingValue name)

/-- The line or two that tell about a flag; only a flag of one letter without a value leaves room on
its line. -/
def Flag.usage (f : Flag) : String :=
  let head := match f.setting with
    | .switch _ => "  -" ++ f.name
    | .text _ => "  -" ++ f.name ++ " string"
  head ++ (if head.length ≤ 4 then "\t" else "\n    \t") ++ f.about ++ "\n"

def usage : String :=
  "Usage: sjsrt [options] <command> [args...]\n\n"
    ++ "Commands:\n"
    ++ "  check A B         Decide A <: B for tags of the table\n"
    ++ "  eq A B            Decide structural equality of A and B\n"
    ++ "  dump [names...]   Print tags and the table digest\n"
    ++ "  pack OUT          Compile the table to OUT (.sjt)\n"
    ++ "  precompute        Fill the relation cache for the table\n"
    ++ "  demo              Run coercions on a scratch runtime\n"
    ++ "\nOptions:\n"
    ++ String.join (flags.map Flag.usage)
    ++ "\nExamples:\n"
    ++ "  sjsrt -table shapes.yaml check Point3 Point\n"
    ++ "  sjsrt -table shapes.yaml pack shapes.sjt\n"
    ++ "  sjsrt -table shapes.sjt precompute && sjsrt -cached check Point3 Point\n"

end Gradual.Command
