import CallChain.Path

/-!
The arguments of the command. Options may be written `--name value`, `--name=value`, `-n value`, `-n=value`
or `-nvalue`, and short flags may be run together. Those that belong to no command in particular may stand
before or behind its name. Behind `--` everything is a plain argument.
-/
namespace CallChain.Command

inductive Format where
  | text
  | json
  | compact
  | pretty
  deriving DecidableEq, Repr

def Format.ofName? : String → Option Format
  | "text" => some text
  | "json" => some json
  | "compact" => some compact
  | "pretty" => some pretty
  | _ => none

structure CheckRequest where
  path : Path := ⟨"."⟩
  format : Format := .text
  fix : Bool := false
  /-- Threshold of the rule on method chains, in place of the one in the configuration. -/
  threshold : Option Nat := none
  exclude : List String := []

inductive Request where
  | check (r : CheckRequest)
  | listRules
  | init (force : Bool)

structure Invocation where
  verbose : Bool
  config : Option Path
  request : Request

/-- Why nothing is run. -/
inductive Refusal where
  | invalid
  | version
  | help
  deriving DecidableEq, Repr

/-! ### Splitting -/

structure OptionSpec where
  name : String
  short : Option Char
  takesValue : Bool

inductive Item where
  | flag (name : String)
  | value (name text : String)
  | plain (text : String)

/-- Something that starts with a dash is no value, but a dash alone is. -/
def isValue (arg : String) : Bool := arg = "-" || arg.toList.head? ≠ some '-'

/-- The value of an option in the next argument. -/
def takeValue (name : String) : List String → Except Refusal (List Item × List String)
  | arg :: rest => if isValue arg then .ok ([.value name arg], rest) else .error .invalid
  | [] => .error .invalid

/-- An option with a long name, behind its dashes. -/
def readLong (specs : List OptionSpec) (body : List Char) (rest : List String) :
    Except Refusal (List Item × List String) :=
  let name := String.ofList (body.takeWhile (· ≠ '='))
  match specs.find? (·.name = name), body.dropWhile (· ≠ '=') with
  | none, _ => .error .invalid
  | some spec, [] => if spec.takesValue then takeValue name rest else .ok ([.flag name], rest)
  | some spec, _ :: text =>
    if spec.takesValue then .ok ([.value name (String.ofList text)], rest) else .error .invalid

/-- Short options run together, behind their dash. -/
def readShort (specs : List OptionSpec) (rest : List String) :
    List Char → Except Refusal (List Item × List String)
  | [] => .ok ([], rest)
  | c :: cs =>
    match specs.find? (·.short = some c) with
    | none => .error .invalid
    | some spec =>
      if spec.takesValue then
        match cs with
        | [] => takeValue spec.name rest
        | '=' :: text => .ok ([.value spec.name (String.ofList text)], rest)
        | text => .ok ([.value spec.name (String.ofList text)], rest)
      else do
        let (items, rest) ← readShort specs rest cs
        return (.flag spec.name :: items, rest)

/-- What the first argument says, with the arguments behind it. -/
def readItems (specs : List OptionSpec) (arg : String) (rest : List String) :
    Except Refusal (List Item × List String) :=
  match arg.toList with
  | '-' :: '-' :: body => readLong specs body rest
  | ['-'] => .ok ([.plain arg], rest)
  | '-' :: body => readShort specs rest body
  | _ => .ok ([.plain arg], rest)

/-- Reads all arguments one after the other; each turn takes one at least. -/
def readAll {σ : Type} (specs : List OptionSpec) (step : σ → Item → Except Refusal σ) :
    Nat → σ → List String → Except Refusal σ
  | _, state, [] => .ok state
  | 0, _, _ :: _ => .error .invalid
  | n + 1, state, arg :: rest =>
    if arg = "--" then rest.foldlM (fun state text => step state (.plain text)) state
    else do
      let (items, rest) ← readItems specs arg rest
      readAll specs step n (← items.foldlM step state) rest

/-! ### Meaning -/

/-- Options that belong to no command in particular. -/
structure Shared where
  verbose : Bool := false
  config : Option Path := none

def sharedSpecs : List OptionSpec :=
  [⟨"verbose", some 'v', false⟩, ⟨"config", some 'c', true⟩, ⟨"help", some 'h', false⟩]

/-- Sets an option that may be given once. -/
def once {α : Type} (old : Option α) (new : α) : Except Refusal (Option α) :=
  match old with
  | none => .ok (some new)
  | some _ => .error .invalid

def onceFlag (old : Bool) : Except Refusal Bool := if old then .error .invalid else .ok true

/-- A path is not empty. -/
def pathOf (text : String) : Except Refusal Path :=
  if text.isEmpty then .error .invalid else .ok ⟨text⟩

def Shared.step (s : Shared) : Item → Except Refusal Shared
  | .flag "verbose" => return { s with verbose := ← onceFlag s.verbose }
  | .flag "help" => .error .help
  | .flag "version" => .error .version
  | .value "config" text => do return { s with config := ← once s.config (← pathOf text) }
  | _ => .error .invalid

/-- A number between one and ten, with a sign and zeros in front if need be. -/
def thresholdOf (text : String) : Except Refusal Nat :=
  let digits := match text.toList with
    | '+' :: digits => digits
    | digits => digits
  let n := digits.foldl (fun acc c => acc * 10 + (c.toNat - '0'.toNat)) 0
  if !digits.isEmpty && digits.all Char.isDigit && 1 ≤ n && n ≤ 10 then .ok n else .error .invalid

/-- Arguments of `check` in the course of reading. -/
structure CheckState where
  shared : Shared := {}
  path : Option Path := none
  format : Option Format := none
  fix : Bool := false
  threshold : Option Nat := none
  exclude : List String := []

def checkSpecs : List OptionSpec :=
  [⟨"format", some 'f', true⟩, ⟨"fix", none, false⟩, ⟨"ignore-chain-with-depth", none, true⟩,
    ⟨"exclude", some 'e', true⟩] ++ sharedSpecs

def CheckState.step (s : CheckState) : Item → Except Refusal CheckState
  | .plain text => do return { s with path := ← once s.path (← pathOf text) }
  | .value "format" text => do
    match Format.ofName? text with
    | some format => return { s with format := ← once s.format format }
    | none => .error .invalid
  | .flag "fix" => do return { s with fix := ← onceFlag s.fix }
  | .value "ignore-chain-with-depth" text => do
    return { s with threshold := ← once s.threshold (← thresholdOf text) }
  | .value "exclude" text => .ok { s with exclude := s.exclude ++ [text] }
  | item => do return { s with shared := ← s.shared.step item }

def CheckState.request (s : CheckState) : CheckRequest :=
  let standard : CheckRequest := {}
  { path := s.path.getD standard.path
    format := s.format.getD standard.format
    fix := s.fix
    threshold := s.threshold
    exclude := s.exclude }

def initSpecs : List OptionSpec := ⟨"force", none, false⟩ :: sharedSpecs

def initStep (s : Shared × Bool) : Item → Except Refusal (Shared × Bool)
  | .flag "force" => do return (s.1, ← onceFlag s.2)
  | item => do return (← s.1.step item, s.2)

/-- The options before the name of the command, the name, and what follows it. -/
def readFront : Nat → Shared → List String → Except Refusal (Shared × String × List String)
  | _, _, [] => .error .invalid
  | 0, _, _ :: _ => .error .invalid
  | n + 1, shared, arg :: rest =>
    if arg = "--" then .error .invalid
    else do
      let specs := ⟨"version", some 'V', false⟩ :: sharedSpecs
      match ← readItems specs arg rest with
      | ([.plain name], rest) => return (shared, name, rest)
      | (items, rest) => readFront n (← items.foldlM Shared.step shared) rest

/-- Of an option that is given twice, before and behind the name of the command, the latter counts. -/
def invocation (front back : Shared) (request : Request) : Invocation where
  verbose := front.verbose || back.verbose
  config := back.config.or front.config
  request := request

def parse (args : List String) : Except Refusal Invocation := do
  let (front, name, rest) ← readFront args.length {} args
  match name with
  | "check" =>
    let s ← readAll checkSpecs CheckState.step rest.length {} rest
    return invocation front s.shared (.check s.request)
  | "list-rules" =>
    return invocation front (← readAll sharedSpecs Shared.step rest.length {} rest) .listRules
  | "init" =>
    let (back, force) ← readAll initSpecs initStep rest.length ({}, false) rest
    return invocation front back (.init force)
  | "help" => .error .help
  | _ => .error .invalid

end CallChain.Command
