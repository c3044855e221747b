import PartitionLog.CommandLine.Flag

/-!
# Requests

`Request.read` tells from the arguments what the tool is asked for. The arguments are taken one by
one by a `Scan`: words before the task and the task's own words, flags with a value attached or in
the next argument, and after `--` words only. The first argument that does not fit ends the scan,
as does a flag that asks for help or for the version. A value in an argument of its own is held, and
looked at when the next flag of its scope comes; so help on a task comes before what is wrong with
the last value in front of the task.
-/

namespace PartitionLog.CommandLine

/-- What is wrong with a command line. -/
inductive Misuse where
  | unknownFlag (text : String)
  | valueForbidden (flag : Flag)
  | valueMissing (flag : Flag)
  | badValue (flag : Flag) (text : String)
  | repeated (flag : Flag)
  | unexpected (word : String)
  | badPosition (text : String)
  | noTask
  | noWords (task : Task)
  deriving DecidableEq, Repr

def Misuse.message : Misuse → String
  | unknownFlag text => s!"unexpected argument {text}"
  | valueForbidden flag => s!"flag --{flag.long} takes no value"
  | valueMissing flag => s!"flag --{flag.long} needs a value"
  | badValue flag text => s!"invalid value {text} for --{flag.long}"
  | repeated flag => s!"flag --{flag.long} is set twice"
  | unexpected word => s!"unexpected word {word}"
  | badPosition text => s!"invalid position {text}"
  | noTask => "no task is named"
  | noWords task => s!"task {task.name} needs words to work on"

/-- What a task is to do. -/
inductive Order where
  | append (payloads : List String) (timeout : Nat)
  | dump (start : Option Int) (preview : Nat)
  | truncate (position : Int) (commit : Option Int)
  deriving DecidableEq, Repr

structure Invocation where
  file : String
  partition : Nat
  order : Order
  deriving DecidableEq, Repr

inductive Request where
  | run (invocation : Invocation)
  | help (scope : Scope)
  | version
  deriving DecidableEq, Repr

/-! ## Numbers -/

def digitsToNat? (digits : List Char) : Option Nat :=
  if !digits.isEmpty && digits.all Char.isDigit then
    some (digits.foldl (fun n c => 10 * n + (c.toNat - '0'.toNat)) 0)
  else none

/-- A decimal number, with or without a plus sign, below `limit`. -/
def natural? (limit : Nat) (text : String) : Option Nat :=
  let digits := match text.toList with
    | '+' :: digits => digits
    | digits => digits
  (digitsToNat? digits).filter (· < limit)

/-- A decimal number, with or without a sign, from `low` up to `high`. -/
def integer? (low high : Int) (text : String) : Option Int :=
  let value : Option Int := match text.toList with
    | '-' :: digits => (digitsToNat? digits).map fun n => -n
    | '+' :: digits => (digitsToNat? digits).map fun n => n
    | digits => (digitsToNat? digits).map fun n => n
  value.filter fun n => decide (low ≤ n) && decide (n ≤ high)

def position? (text : String) : Option Int :=
  integer? Int64.minValue.toInt Int64.maxValue.toInt text

/-! ## Settings -/

/-- What was set in a scope. -/
structure Settings where
  file : Option String := none
  partition : Option Nat := none
  timeout : Option Nat := none
  start : Option Int := none
  preview : Option Nat := none
  commit : Option Int := none
  payloads : List String := []
  position : Option Int := none
  deriving DecidableEq, Repr

/-- A value that is set once. -/
def setOnce {α : Type} (flag : Flag) (text : String) (known value : Option α) :
    Except Misuse (Option α) :=
  if known.isSome then .error (.repeated flag)
  else match value with
    | none => .error (.badValue flag text)
    | some a => .ok (some a)

def Settings.set (s : Settings) (flag : Flag) (text : String) : Except Misuse Settings :=
  match flag with
  | .file =>
    (setOnce flag text s.file (if text.isEmpty then none else some text)).map
      ({ s with file := · })
  | .partition =>
    (setOnce flag text s.partition ((integer? 0 (UInt32.size - 1) text).map Int.toNat)).map
      ({ s with partition := · })
  | .timeout =>
    (setOnce flag text s.timeout (natural? UInt64.size text)).map ({ s with timeout := · })
  | .start => (setOnce flag text s.start (position? text)).map ({ s with start := · })
  | .preview =>
    (setOnce flag text s.preview (natural? UInt64.size text)).map ({ s with preview := · })
  | .commit => (setOnce flag text s.commit (position? text)).map ({ s with commit := · })
  | .help | .version => .error (.valueForbidden flag)

/-! ## Scanning -/

/-- What an argument is by its first characters. -/
inductive Shape where
  | separator
  | long (name : String) (value : Option String)
  | short (letter : Char) (rest : List Char)
  | word
  deriving DecidableEq, Repr

def Shape.of (argument : String) : Shape :=
  match argument.toList with
  | ['-', '-'] => separator
  | '-' :: '-' :: chars =>
    let name := String.ofList (chars.takeWhile (· != '='))
    match chars.dropWhile (· != '=') with
    | [] => long name none
    | _ :: value => long name (some (String.ofList value))
  | '-' :: letter :: rest => short letter rest
  | _ => word

/-- The value in the same argument as a letter, after `=` or at once. -/
def attached : List Char → Option String
  | [] => none
  | '=' :: value => some (String.ofList value)
  | value => some (String.ofList value)

/-- What was set in a scope, and a value for a flag that was not looked at yet. -/
structure Level where
  settings : Settings := {}
  held : Option (Flag × String) := none
  deriving DecidableEq, Repr

/-- Everything that was set, the held value included. -/
def Level.all (level : Level) : Except Misuse Settings :=
  match level.held with
  | none => .ok level.settings
  | some (flag, text) => level.settings.set flag text

structure Scan where
  scope : Scope := .tool
  /-- A flag whose value is the next argument. -/
  waiting : Option Flag := none
  /-- No argument is a flag any more. -/
  wordsOnly : Bool := false
  /-- What was set before the task. -/
  outer : Level := {}
  level : Level := {}
  deriving DecidableEq, Repr

/-- Why a scan ends early. -/
inductive Stop where
  | misuse (misuse : Misuse)
  | request (request : Request)
  deriving DecidableEq, Repr

namespace Scan

def takeWord (s : Scan) (word : String) : Except Stop Scan :=
  let given := s.level.settings
  match s.scope with
  | .tool =>
    match if s.wordsOnly then none else Scope.ofName? word with
    | none => .error (.misuse (.unexpected word))
    | some scope =>
      .ok { scope := scope, wordsOnly := scope == .guide, outer := s.level }
  | .task .append | .guide =>
    .ok { s with level.settings := { given with payloads := given.payloads ++ [word] } }
  | .task .dump => .error (.misuse (.unexpected word))
  | .task .truncate =>
    if given.position.isSome then .error (.misuse (.unexpected word))
    else match position? word with
      | none => .error (.misuse (.badPosition word))
      | some position => .ok { s with level.settings := { given with position := some position } }

/-- Take a flag, with the value attached to it. -/
def takeFlag (s : Scan) (flag : Flag) (value : Option String) : Except Stop Scan :=
  match s.level.all with
  | .error m => .error (.misuse m)
  | .ok settings =>
    match flag, value with
    | .help, _ => .error (.request (.help s.scope))
    | .version, _ => .error (.request .version)
    | flag, none => .ok { s with waiting := some flag, level := { settings := settings } }
    | flag, some text =>
      match settings.set flag text with
      | .error m => .error (.misuse m)
      | .ok settings => .ok { s with level := { settings := settings } }

def takeLong (s : Scan) (name : String) (value : Option String) : Except Stop Scan :=
  match s.scope.flags.find? (·.long == name) with
  | none => .error (.misuse (.unknownFlag ("--" ++ name)))
  | some flag =>
    if flag.valueName?.isNone && value.isSome then .error (.misuse (.valueForbidden flag))
    else s.takeFlag flag value

def takeShort (s : Scan) (letter : Char) (rest : List Char) : Except Stop Scan :=
  match s.scope.flags.find? (·.short? == some letter) with
  | none => .error (.misuse (.unknownFlag (String.ofList ['-', letter])))
  | some flag => s.takeFlag flag (attached rest)

def take (s : Scan) (argument : String) : Except Stop Scan :=
  if s.wordsOnly then s.takeWord argument
  else
    match Shape.of argument, s.waiting with
    | .word, some flag => .ok { s with waiting := none, level.held := some (flag, argument) }
    | .word, none => s.takeWord argument
    | _, some flag => .error (.misuse (.valueMissing flag))
    | .separator, none => .ok { s with wordsOnly := true }
    | .long name value, none => s.takeLong name value
    | .short letter rest, none => s.takeShort letter rest

def order (task : Task) (given : Settings) : Except Misuse Order :=
  match task with
  | .append =>
    if given.payloads.isEmpty then .error (.noWords task)
    else .ok (.append given.payloads (given.timeout.getD 1000))
  | .dump => .ok (.dump given.start (given.preview.getD 32))
  | .truncate =>
    match given.position with
    | none => .error (.noWords task)
    | some position => .ok (.truncate position given.commit)

/-- What was set for the task itself wins over what was set before it. -/
def invocation (given outer : Settings) (order : Order) : Invocation where
  file := (given.file <|> outer.file).getD "./partition-1.log"
  partition := (given.partition <|> outer.partition).getD 1
  order := order

/-- The scope that the words after `help` name. -/
def guideTo : List String → Except Misuse Request
  | [] => .ok (.help .tool)
  | [name] =>
    match Scope.ofName? name with
    | some scope => .ok (.help scope)
    | none => .error (.unexpected name)
  | name :: next :: _ =>
    .error (.unexpected (if (Scope.ofName? name).isSome then next else name))

def finish (s : Scan) : Except Misuse Request :=
  match s.waiting, s.scope with
  | some flag, _ => .error (.valueMissing flag)
  | none, .tool => .error .noTask
  | none, .guide => guideTo s.level.settings.payloads
  | none, .task task => do
    let given ← s.level.all
    let order ← order task given
    return .run (invocation given (← s.outer.all) order)

end Scan

def Request.read (arguments : List String) : Except Misuse Request :=
  match arguments.foldlM Scan.take {} with
  | .ok scan => scan.finish
  | .error (.misuse m) => .error m
  | .error (.request r) => .ok r

end PartitionLog.CommandLine
