/-!
# Command line arguments

The arguments of a command are options and operands.  An option is written
`--name`, with its value behind an equals sign or as the next argument; the
next argument is no value when it begins with a hyphen, unless it is a hyphen
alone.  A letter stands for an option as `-x`, with its value attached, behind
an equals sign or as the next argument.  Behind `--` everything is an operand.
-/

namespace Recognizer

/-- An option that a command knows. -/
inductive OptionRule where
  /-- An option without a value, given at most once. -/
  | flag (name : String)
  /-- An option with a value, given at most once. -/
  | valued (name : String)
  /-- An option with a value that may be given again, also by its letter. -/
  | repeated (name : String) (letter : Char)
deriving DecidableEq

namespace OptionRule

def name : OptionRule → String
  | .flag name => name
  | .valued name => name
  | .repeated name _ => name

def letter? : OptionRule → Option Char
  | .repeated _ letter => some letter
  | _ => none

/-- Whether an option may be given more than once. -/
def mayRepeat : OptionRule → Bool
  | .repeated _ _ => true
  | _ => false

end OptionRule

/-- What a command accepts: options, a number of operands, and commands that
may follow. -/
structure ArgumentRules where
  options : List OptionRule
  operands : Nat
  subcommands : List String

/-- The arguments of a command, in the order in which they were given. -/
structure Arguments where
  /-- Names and values; the value of a flag is empty. -/
  options : List (String × String)
  operands : List String
  /-- The command that follows and its own arguments. -/
  subcommand : Option (String × List String)
deriving DecidableEq

/-- The form of an argument in front of `--`. -/
inductive ArgumentForm where
  | separator
  | long (name : String) (value : Option String)
  | short (letter : Char) (attached : List Char)
  | plain
deriving DecidableEq

namespace ArgumentForm

/-- The characters in front of the first equals sign, and the value behind
it. -/
def divide (characters : List Char) : String × Option String :=
  (String.ofList (characters.takeWhile (· != '=')),
    match characters.dropWhile (· != '=') with
    | [] => none
    | _ :: value => some (String.ofList value))

def of (argument : String) : ArgumentForm :=
  match argument.toList with
  | ['-', '-'] => .separator
  | '-' :: '-' :: characters =>
      let (name, value) := divide characters
      .long name value
  | '-' :: letter :: attached => .short letter attached
  | _ => .plain

/-- The value attached to a letter, with or without an equals sign. -/
def attachedValue : List Char → Option String
  | [] => none
  | '=' :: value => some (String.ofList value)
  | value => some (String.ofList value)

end ArgumentForm

namespace Arguments

/-- No arguments. -/
def none : Arguments :=
  ⟨[], [], Option.none⟩

/-- Records an option. -/
def withOption (arguments : Arguments) (name value : String) : Arguments :=
  { arguments with options := arguments.options ++ [(name, value)] }

/-- Records operands. -/
def withOperands (arguments : Arguments) (operands : List String) :
    Arguments :=
  { arguments with operands := arguments.operands ++ operands }

/-- Whether an argument can be the value of the option in front of it. -/
def isValue (argument : String) : Bool :=
  ArgumentForm.of argument == .plain

/-- Reads the arguments from left to right. -/
def scan (rules : ArgumentRules) (read : Arguments) :
    List String → Option Arguments
  | [] => some read
  | argument :: later =>
      match ArgumentForm.of argument with
      | .separator => some (read.withOperands later)
      | .plain =>
          if rules.subcommands.isEmpty then
            scan rules (read.withOperands [argument]) later
          else if argument ∈ rules.subcommands then
            some { read with subcommand := some (argument, later) }
          else Option.none
      | .long name attached =>
          match rules.options.find? (·.name == name), attached with
          | Option.none, _ => Option.none
          | some (.flag _), some _ => Option.none
          | some (.flag _), Option.none =>
              scan rules (read.withOption name "") later
          | some _, some value => scan rules (read.withOption name value) later
          | some _, Option.none =>
              match later with
              | [] => Option.none
              | value :: others =>
                  if isValue value then
                    scan rules (read.withOption name value) others
                  else Option.none
      | .short letter attached =>
          match rules.options.find? (·.letter? == some letter),
              ArgumentForm.attachedValue attached with
          | Option.none, _ => Option.none
          | some rule, some value =>
              scan rules (read.withOption rule.name value) later
          | some rule, Option.none =>
              match later with
              | [] => Option.none
              | value :: others =>
                  if isValue value then
                    scan rules (read.withOption rule.name value) others
                  else Option.none

/-- The values given for an option, in order. -/
def values (arguments : Arguments) (name : String) : List String :=
  (arguments.options.filter (·.1 == name)).map (·.2)

/-- The value of an option that is given at most once. -/
def value? (arguments : Arguments) (name : String) : Option String :=
  (arguments.values name).head?

def has (arguments : Arguments) (name : String) : Bool :=
  !(arguments.values name).isEmpty

/-- Whether no option is given too often and no operand is left over. -/
def conform (arguments : Arguments) (rules : ArgumentRules) : Bool :=
  rules.options.all (fun rule =>
      rule.mayRepeat || (arguments.values rule.name).length ≤ 1)
    && arguments.operands.length ≤ rules.operands

/-- The arguments of a command, if it accepts them. -/
def parse? (rules : ArgumentRules) (arguments : List String) :
    Option Arguments :=
  match scan rules none arguments with
  | some read => if read.conform rules then some read else Option.none
  | Option.none => Option.none

end Arguments

end Recognizer
