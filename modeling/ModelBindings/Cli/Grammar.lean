import ModelBindings.Recs.Mode

/-!
Command lines: switches by a long name or a letter, with a value or without, words by their place,
and words that name a command. A switch is settled, and its value looked at, when the next switch or
place begins or the line ends; a word that nothing knows is reported before that.
-/

namespace ModelBindings.Cli

inductive UsageError where
  | help
  | version
  | nothingAsked
  | missingCommand
  | unknownCommand
  | unknownArgument
  | missingArgument
  | repeatedSwitch
  | badChoice
  | badNumber
  | surplusValue
  deriving DecidableEq, Repr

inductive Check where
  | any
  | path
  | mode
  | word
  deriving DecidableEq, Repr

inductive Kind where
  | flag
  | help
  | version
  | value (check : Check)
  deriving DecidableEq, Repr

structure Switch where
  long : String
  short : Option Char
  kind : Kind
  deriving DecidableEq, Repr

structure Grammar where
  switches : List Switch
  commands : List String
  places : Nat
  deriving Repr

/-- A number of 64 bits: decimal digits, after a plus sign or without. -/
def number? (s : String) : Option Nat :=
  let ds :=
    match s.toList with
    | '+' :: ds => ds
    | ds => ds
  if ds.isEmpty ∨ ¬ ds.all Char.isDigit then none
  else
    let n := ds.foldl (fun n d => n * 10 + (d.toNat - '0'.toNat)) 0
    if n < Nat.pow 2 64 then some n else none

def Check.run (value : String) : Check → Except UsageError Unit
  | .any => .ok ()
  | .path => if value.isEmpty then .error .badChoice else .ok ()
  | .mode => if (Recs.Mode.ofName? value).isSome then .ok () else .error .badChoice
  | .word => if (number? value).isSome then .ok () else .error .badNumber

/-- What has been read of a line. A pending switch has not been settled, and may lack its value. -/
structure Scan where
  given : List (String × String)
  places : List String
  pending : Option (Switch × Option String)
  trailing : Bool
  deriving Repr

namespace Scan

def empty : Scan := ⟨[], [], none, false⟩

def has (s : Scan) (long : String) : Bool :=
  s.given.any fun g => g.1 == long

def value? (s : Scan) (long : String) : Option String :=
  s.given.lookup long

def enter (s : Scan) (switch : Switch) (value : String) : Except UsageError Scan :=
  if s.has switch.long then .error .repeatedSwitch
  else .ok { s with given := s.given ++ [(switch.long, value)] }

def give (s : Scan) (switch : Switch) (check : Check) (value : String) :
    Except UsageError Scan := do
  let s ← s.enter switch value
  check.run value
  return s

def settle (s : Scan) : Except UsageError Scan :=
  let t := { s with pending := none }
  match s.pending with
  | some ({ kind := .value _, .. }, none) => .error .badChoice
  | some (switch@{ kind := .value check, .. }, some v) => t.give switch check v
  | _ => .ok t

def isAwaiting (s : Scan) : Bool :=
  match s.pending with
  | some (_, none) => !s.trailing
  | _ => false

def take (s : Scan) (switch : Switch) (attached : Option String) : Except UsageError Scan := do
  match switch.kind, attached with
  | .value check, some v => (← s.settle).give switch check v
  | .value _, none => return { ← s.settle with pending := some (switch, none) }
  | _, some _ => .error .surplusValue
  | .flag, none => (← s.settle).enter switch ""
  | .help, none => do
      let _ ← s.settle
      .error .help
  | .version, none => do
      let _ ← s.settle
      .error .version

end Scan

namespace Grammar

def takeLong (g : Grammar) (s : Scan) (body : List Char) : Except UsageError Scan :=
  let name := String.ofList (body.takeWhile (· ≠ '='))
  let attached :=
    match body.dropWhile (· ≠ '=') with
    | _ :: v => some (String.ofList v)
    | [] => none
  match g.switches.find? fun w => w.long == name with
  | some switch => s.take switch attached
  | none => .error .unknownArgument

/-- Takes letters in turn. What follows the letter of a switch with a value is the value. -/
def takeLetters (g : Grammar) (s : Scan) : List Char → Except UsageError Scan
  | [] => .ok s
  | c :: cs =>
      match g.switches.find? fun w => w.short == some c with
      | none => .error .unknownArgument
      | some switch =>
          match switch.kind, cs with
          | .value _, [] => s.take switch none
          | .value _, '=' :: v => s.take switch (some (String.ofList v))
          | .value _, v => s.take switch (some (String.ofList v))
          | _, cs => do g.takeLetters (← s.take switch none) cs

def place (g : Grammar) (s : Scan) (word : String) : Except UsageError Scan := do
  if s.places.length < g.places then
    let s ← s.settle
    return { s with places := s.places ++ [word] }
  else if g.commands.isEmpty then .error .unknownArgument
  else if s.trailing ∧ g.commands.contains word then .error .unknownArgument
  else .error .unknownCommand

def takeWord (g : Grammar) (s : Scan) (word : String) : Except UsageError Scan :=
  if s.trailing then g.place s word
  else
    match word.toList with
    | ['-', '-'] => .ok { s with trailing := true }
    | '-' :: '-' :: body => g.takeLong s body
    | '-' :: c :: cs => g.takeLetters s (c :: cs)
    | _ =>
        match s.pending with
        | some (switch, none) => .ok { s with pending := some (switch, some word) }
        | _ => g.place s word

def scan (g : Grammar) (s : Scan) : List String → Except UsageError (Scan × List String)
  | [] => do return (← s.settle, [])
  | word :: words =>
      if ¬ s.trailing ∧ ¬ s.isAwaiting ∧ g.commands.contains word then .ok (s, word :: words)
      else do g.scan (← g.takeWord s word) words

end Grammar

end ModelBindings.Cli
