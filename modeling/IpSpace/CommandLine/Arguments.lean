/-!
# Command line arguments

The command takes a mode and optionally a file as operands, in this order, and a few options:

* `-w`, `--within` with the containing range of the mode for gaps,
* `--json` for JSON instead of tables,
* `--log-config` with a path,
* `-h`, `--help` and `-V`, `--version`.

A long option takes its value after an equals sign or as the next argument; a short option as the
rest of its argument, with or without an equals sign, or as the next argument. Short options without
value may share an argument. A bare `--` makes operands of all arguments after it.

A value that is an argument of its own is not looked at right away. It stays *pending* until the
next option or operand comes, or the arguments end. An argument that is not understood at all is
therefore reported before a pending value that is wrong.
-/

namespace IpSpace

/-- What to compute from the ranges of a list. -/
inductive Mode where
  | merge
  | blocks
  | runs
  | gaps
  | conflicts
  deriving DecidableEq, Repr

/-- The mode with the given name. -/
def Mode.ofName? : String → Option Mode
  | "merge" => some .merge
  | "prefix" => some .blocks
  | "sequential" => some .runs
  | "gaps" => some .gaps
  | "overlaps" => some .conflicts
  | _ => none

/-- Why the arguments do not lead to a run. -/
inductive Usage where
  | displayHelp
  | displayVersion
  | missingRequiredArgument
  | invalidValue
  | unknownArgument
  | argumentConflict
  | tooManyValues
  deriving DecidableEq, Repr

/-- What a run needs to know. -/
structure Arguments where
  mode : Mode
  list : Option String
  within : Option String
  json : Bool
  logConfig : Option String
  deriving DecidableEq, Repr

namespace Arguments

/-! ## Options -/

/-- What a value is given for. -/
inductive Slot where
  | mode
  | list
  | within
  | logConfig
  deriving DecidableEq, Repr

/-- The meaning of an option. -/
inductive Flag where
  | value (slot : Slot)
  | json
  | help
  | version
  deriving DecidableEq, Repr

/-- The option with the given long name. -/
def longFlag? : String → Option Flag
  | "within" => some (.value .within)
  | "json" => some .json
  | "log-config" => some (.value .logConfig)
  | "help" => some .help
  | "version" => some .version
  | _ => none

/-- The option with the given letter. -/
def shortFlag? : Char → Option Flag
  | 'w' => some (.value .within)
  | 'h' => some .help
  | 'V' => some .version
  | _ => none

/-! ## Progress -/

/-- What is known after some of the arguments. The pending slot waits for its value, or has it and
waits to be settled. -/
structure Progress where
  mode : Option Mode := none
  list : Option String := none
  within : Option String := none
  logConfig : Option String := none
  json : Bool := false
  pending : Option (Slot × Option String) := none
  operands : Nat := 0
  onlyOperands : Bool := false
  deriving DecidableEq, Repr

namespace Progress

/-- Gives a slot its value. An option may be given once only; a mode has to be one of the names, and
a path must not be empty. -/
def store (p : Progress) (slot : Slot) (value : String) : Except Usage Progress :=
  match slot with
  | .mode =>
    match Mode.ofName? value with
    | some mode => .ok { p with mode := some mode }
    | none => .error .invalidValue
  | .list => if value.isEmpty then .error .invalidValue else .ok { p with list := some value }
  | .within =>
    if p.within.isSome then .error .argumentConflict else .ok { p with within := some value }
  | .logConfig =>
    if p.logConfig.isSome then .error .argumentConflict
    else if value.isEmpty then .error .invalidValue
    else .ok { p with logConfig := some value }

/-- Settles the pending slot. One that still has no value is in error. -/
def settle (p : Progress) : Except Usage Progress :=
  match p.pending with
  | none => .ok p
  | some (slot, some value) => { p with pending := none }.store slot value
  | some (_, none) => .error .invalidValue

/-- Takes up an option, with the value attached to it, if any. -/
def addFlag (p : Progress) (flag : Flag) (attached : Option String) : Except Usage Progress := do
  let p ← p.settle
  match flag, attached with
  | .value slot, some value => p.store slot value
  | .value slot, none => return { p with pending := some (slot, none) }
  | .json, _ => if p.json then throw .argumentConflict else return { p with json := true }
  | .help, _ => throw .displayHelp
  | .version, _ => throw .displayVersion

/-- Takes up an operand: the first is the mode, the second the file. -/
def addOperand (p : Progress) (value : String) : Except Usage Progress := do
  match p.operands with
  | 0 => return { ← p.settle with pending := some (.mode, some value), operands := 1 }
  | 1 => return { ← p.settle with pending := some (.list, some value), operands := 2 }
  | _ => throw .unknownArgument

/-- Takes up a long option, given by what follows its two hyphens. -/
def addLong (p : Progress) (text : List Char) : Except Usage Progress :=
  let name := String.ofList (text.takeWhile (· != '='))
  let attached := match text.dropWhile (· != '=') with
    | [] => none
    | _ :: value => some (String.ofList value)
  match longFlag? name, attached with
  | none, _ => .error .unknownArgument
  | some (.value slot), attached => p.addFlag (.value slot) attached
  | some flag, none => p.addFlag flag none
  | some _, some _ => .error .tooManyValues

/-- Takes up the short options in what follows a single hyphen. The first that takes a value takes
the rest as its value, unless nothing is left. -/
def addShort (p : Progress) : List Char → Except Usage Progress
  | [] => .ok p
  | c :: rest =>
    match shortFlag? c with
    | none => .error .unknownArgument
    | some (.value slot) =>
      match rest with
      | [] => p.addFlag (.value slot) none
      | '=' :: value => p.addFlag (.value slot) (some (String.ofList value))
      | value => p.addFlag (.value slot) (some (String.ofList value))
    | some flag => do (← p.addFlag flag none).addShort rest

/-- Takes up one argument. -/
def add (p : Progress) (argument : String) : Except Usage Progress :=
  if p.onlyOperands then p.addOperand argument
  else
    match argument.toList with
    | ['-', '-'] => .ok { p with onlyOperands := true }
    | '-' :: '-' :: text => p.addLong text
    | '-' :: c :: rest => p.addShort (c :: rest)
    | _ =>
      match p.pending with
      | some (slot, none) => .ok { p with pending := some (slot, some argument) }
      | _ => p.addOperand argument

/-- What a run needs to know, after all arguments. -/
def finish (p : Progress) : Except Usage Arguments := do
  let p ← p.settle
  match p.mode with
  | some mode => return ⟨mode, p.list, p.within, p.json, p.logConfig⟩
  | none => throw .missingRequiredArgument

end Progress

/-- Reads the arguments of the command. -/
def parse (arguments : List String) : Except Usage Arguments := do
  (← arguments.foldlM Progress.add {}).finish

end Arguments

end IpSpace
