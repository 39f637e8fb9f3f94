import PatternSampler.Synthesis

/-!
# The command line

`patsynth` prints strings for the patterns that it is given, one on a line.
Options may stand between the patterns and `--` ends them.  Arguments are read in
order, so the first one that is wrong decides.
-/

namespace PatternSampler.CommandLine

inductive NumberOption
  | seed
  | count
  | slack
deriving DecidableEq, Repr

def NumberOption.name : NumberOption → String
  | seed => "seed"
  | count => "count"
  | slack => "repeat-slack"

def NumberOption.ofName? (name : String) : Option NumberOption :=
  [seed, count, slack].find? (·.name == name)

inductive UsageError
  | unknownOption (arg : String)
  | missingValue (option : NumberOption)
  | invalidNumber (option : NumberOption) (value : String)
  | repeatedOption (name : String)
  | noPattern
deriving DecidableEq, Repr

def UsageError.message : UsageError → String
  | unknownOption arg => "error: unexpected argument '" ++ arg ++ "' found"
  | missingValue option => "error: a value is required for '--" ++ option.name ++ "'"
  | invalidNumber option value =>
      "error: invalid value '" ++ value ++ "' for '--" ++ option.name ++ "'"
  | repeatedOption name => "error: the argument '--" ++ name ++ "' cannot be used multiple times"
  | noPattern => "error: no pattern was given"

structure Request where
  patterns : List String
  numbers : List (NumberOption × Nat)
  verbose : Bool
deriving DecidableEq, Repr

namespace Request

def empty : Request := ⟨[], [], false⟩

def number (r : Request) (option : NumberOption) (default : Nat) : Nat :=
  (r.numbers.lookup option).getD default

/-- A number of 64 bits, in decimal digits, which a plus sign may precede. -/
def number? (value : String) : Option Nat :=
  let digits := match value.toList with
    | '+' :: digits => digits
    | digits => digits
  if digits.isEmpty then none
  else ((digits.mapM (digitOf? 10)).map (numberOf 10)).filter (· < Source.wordCount)

def setNumber (r : Request) (option : NumberOption) (value : String) : Except UsageError Request :=
  match number? value with
  | none => .error (.invalidNumber option value)
  | some n =>
      if (r.numbers.lookup option).isSome then .error (.repeatedOption option.name)
      else .ok { r with numbers := (option, n) :: r.numbers }

def setVerbose (r : Request) : Except UsageError Request :=
  if r.verbose then .error (.repeatedOption "verbose") else .ok { r with verbose := true }

end Request

inductive Command
  | version
  | generate (request : Request)

/-- Reads a cluster of one-letter options; the answer is `none` for the version. -/
def shortOptions (r : Request) : List Char → Except UsageError (Option Request)
  | [] => .ok (some r)
  | 'V' :: _ => .ok none
  | 'v' :: rest => do shortOptions (← r.setVerbose) rest
  | c :: _ => .error (.unknownOption ("-" ++ c.toString))

def isOption (arg : String) : Bool :=
  match arg.toList with
  | '-' :: _ :: _ => true
  | _ => false

def Request.toCommand (r : Request) : Except UsageError Command :=
  if r.patterns.isEmpty then .error .noPattern else .ok (.generate r)

def readArgs (r : Request) : List String → Except UsageError Command
  | [] => r.toCommand
  | arg :: rest =>
      match arg.toList with
      | ['-', '-'] => { r with patterns := r.patterns ++ rest : Request }.toCommand
      | '-' :: '-' :: long =>
          let name := String.ofList (long.takeWhile (· != '='))
          match NumberOption.ofName? name, long.dropWhile (· != '=') with
          | some option, _ :: value => do
              readArgs (← r.setNumber option (String.ofList value)) rest
          | some option, [] =>
              match rest with
              | [] => .error (.missingValue option)
              | value :: rest =>
                  if isOption value then .error (.missingValue option)
                  else do readArgs (← r.setNumber option value) rest
          | none, _ =>
              if arg = "--verbose" then do readArgs (← r.setVerbose) rest
              else if arg = "--version" then .ok .version
              else .error (.unknownOption arg)
      | '-' :: c :: short =>
          match shortOptions r (c :: short) with
          | .error e => .error e
          | .ok none => .ok .version
          | .ok (some r) => readArgs r rest
      | _ => readArgs { r with patterns := r.patterns ++ [arg] } rest

structure Outcome where
  code : Nat
  stdout : String
  stderr : String
deriving DecidableEq, Repr

def seedAt (r : Request) (place : Nat) : StateM Source UInt64 :=
  match r.numbers.lookup .seed with
  | some seed => pure (UInt64.ofNat (seed + place))
  | none => Source.next

/-- Generates the strings of a pattern from the given place on.  The answer is
what is printed by then, and the error that ended the run if one did. -/
def printStrings (r : Request) (pattern : String) (place : Nat) (printed : String) :
    (count : Nat) → StateM Source (String × Option GenerationError)
  | 0 => pure (printed, none)
  | count + 1 => do
      let seed ← seedAt r place
      match synthesizeSeeded pattern (r.number .slack defaultSlack) seed with
      | .ok generated => printStrings r pattern (place + 1) (printed ++ generated ++ "\n") count
      | .error e => pure (printed, some e)

def printPatterns (r : Request) (printed : String) : List String → StateM Source Outcome
  | [] => pure ⟨0, printed, ""⟩
  | pattern :: rest => do
      match ← printStrings r pattern 0 printed (r.number .count 1) with
      | (printed, none) => printPatterns r printed rest
      | (printed, some e) => pure ⟨1, printed, "Error: " ++ pattern ++ ": " ++ e.message ++ "\n"⟩

/-- Seeds that the arguments leave open come from the source. -/
def run (args : List String) : StateM Source Outcome :=
  match readArgs .empty args with
  | .error e => pure ⟨2, "", e.message ++ "\n"⟩
  | .ok .version => pure ⟨0, "patsynth 0.1.0\n", ""⟩
  | .ok (.generate r) => printPatterns r "" r.patterns

end PatternSampler.CommandLine
